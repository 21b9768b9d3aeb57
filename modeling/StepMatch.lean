import StepMatch.Session
import StepMatch.Inventory
import StepMatch.Proofs.Assertion.Agreement
import StepMatch.Proofs.Assertion.Meaning
import StepMatch.Proofs.DataType.Iso
import StepMatch.Proofs.DataType.Narrative
import StepMatch.Proofs.DataType.PlainForm
import StepMatch.Proofs.DataType.Standard
import StepMatch.Proofs.Expression.Acceptance
import StepMatch.Proofs.Expression.Blame
import StepMatch.Proofs.Expression.Leaves
import StepMatch.Proofs.Expression.Printing
import StepMatch.Proofs.Expression.Slots
import StepMatch.Proofs.Expression.Spacing
import StepMatch.Proofs.Locale.Sharing
import StepMatch.Proofs.Matcher.Binding
import StepMatch.Proofs.Matcher.Clauses
import StepMatch.Proofs.Matcher.Literals
import StepMatch.Proofs.Matcher.Merges
import StepMatch.Proofs.Matcher.NegatedWords
import StepMatch.Proofs.Matcher.Reconstruction
import StepMatch.Proofs.Matcher.References
import StepMatch.Proofs.Matcher.Sentences
import StepMatch.Proofs.Pattern.Ink
import StepMatch.Proofs.Session.Locales
