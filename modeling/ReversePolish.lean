import ReversePolish.Main
import ReversePolish.Proofs.Concatenation
import ReversePolish.Proofs.Postfix
import ReversePolish.Proofs.Padding
import ReversePolish.Proofs.Conversation
import ReversePolish.Proofs.Agreement
import ReversePolish.Proofs.Thresholds
import ReversePolish.Proofs.Packing
import ReversePolish.Proofs.Rounding
import ReversePolish.Proofs.Shortest
import ReversePolish.Proofs.LetterCase
import ReversePolish.Proofs.Grammar
import ReversePolish.Proofs.Classification
import ReversePolish.Proofs.Written
import ReversePolish.Proofs.Prompt
import ReversePolish.Proofs.Decoding
import ReversePolish.Proofs.Transcript
import ReversePolish.Proofs.Account
import ReversePolish.Proofs.Chronicle
import ReversePolish.Proofs.Unreadable
import ReversePolish.Proofs.ExactValue
import ReversePolish.Proofs.Spelling
import ReversePolish.Proofs.Isolation
import ReversePolish.Proofs.Clearing
import ReversePolish.Proofs.Depth
import ReversePolish.Proofs.Canonical
import ReversePolish.Proofs.Forest
import ReversePolish.Proofs.Quotation
import ReversePolish.Proofs.Renderings
import ReversePolish.Proofs.Replay
import ReversePolish.Proofs.Equality
import ReversePolish.Proofs.Observation
import ReversePolish.Proofs.Respacing
