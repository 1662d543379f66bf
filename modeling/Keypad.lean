import Keypad.Main
import Keypad.Phrase
import Keypad.Proofs.Numerals
import Keypad.Proofs.Rounding
import Keypad.Proofs.Scanning
import Keypad.Proofs.ImpliedProducts
import Keypad.Proofs.Structure
import Keypad.Proofs.PhraseValue
import Keypad.Proofs.Postorder
import Keypad.Proofs.PreviewCommit
import Keypad.Proofs.Reader
import Keypad.Proofs.RuleOrder
import Keypad.Proofs.WellFormed
import Keypad.Proofs.AcceptedAgain
import Keypad.Proofs.ReadingKeys
import Keypad.Proofs.Completion
import Keypad.Proofs.Grammar
import Keypad.Proofs.Acceptance
import Keypad.Proofs.CarefulUse
import Keypad.Proofs.ReadBack
import Keypad.Proofs.AnswerOperand
import Keypad.Proofs.Continuation
import Keypad.Proofs.Parentheses
import Keypad.Proofs.PhraseForm
import Keypad.Proofs.StoredAnswer
import Keypad.Proofs.PlainTexts
import Keypad.Proofs.PassOrder
import Keypad.Proofs.KeyStructure
import Keypad.Proofs.Undoing
import Keypad.Proofs.LineByLine
import Keypad.Proofs.LocalGrammar
import Keypad.Proofs.TypingInOrder
import Keypad.Proofs.Factorization
import Keypad.Proofs.WrittenStrokes
import Keypad.Proofs.SecondAttempt
import Keypad.Proofs.CanonicalText
import Keypad.Proofs.DanglingTail
import Keypad.Proofs.ListCursor
import Keypad.Proofs.CaretDrawing
import Keypad.Proofs.Conservation
