import ExactPoly.Poly.Arithmetic
import ExactPoly.Poly.Calculus
import ExactPoly.Poly.Text
import ExactPoly.Proofs.Poly.Coefficients
import ExactPoly.Proofs.Poly.Ring
import ExactPoly.Proofs.Text.Grammar
import ExactPoly.Proofs.Text.RoundTrip
import ExactPoly.Proofs.Poly.Antiderivative
import ExactPoly.Proofs.Poly.OneTerm
import ExactPoly.Proofs.Text.Accepted
import ExactPoly.Proofs.Text.Agreement
import ExactPoly.Proofs.TermList.Coefficients
import ExactPoly.Proofs.TermList.Script
import ExactPoly.Proofs.Text.Reorder
import ExactPoly.Proofs.Scalar.Exact
import ExactPoly.Proofs.TermList.Shift
import ExactPoly.Proofs.Poly.Leibniz
import ExactPoly.Proofs.Poly.DivisionLoop
import ExactPoly.Proofs.Poly.DivisionLaws
import ExactPoly.Proofs.Text.TermRoundTrip
import ExactPoly.Proofs.Text.TermGrammar
import ExactPoly.Proofs.Scalar.Sign
import ExactPoly.Proofs.Text.ScalarGrammar
import ExactPoly.Proofs.Text.Join
