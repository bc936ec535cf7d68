import Recognizer.Dfa.Marking
import Recognizer.Dfa.Minimize
import Recognizer.Grammar.Derivation
import Recognizer.LR.Compile
import Recognizer.LR.Listing
import Recognizer.LR.Run
import Recognizer.Regex.Annotation
import Recognizer.Regex.Arena
import Recognizer.Regex.Compile
import Recognizer.Regex.Postfix
import Recognizer.Regex.ShuntingYard
import Recognizer.Proofs.Dfa.Minimize
import Recognizer.Proofs.LR.Lookaheads
import Recognizer.Proofs.LR.Safety
import Recognizer.Proofs.LR.ValidItems
import Recognizer.Proofs.Regex.Compile
import Recognizer.Proofs.LR.Unambiguous
import Recognizer.Proofs.LR.CorrectPrefix
import Recognizer.Proofs.Iteration.Discovery
import Recognizer.Proofs.Regex.ShuntingYard
import Recognizer.Proofs.LR.CoreQuotient
import Recognizer.Proofs.LR.Numbering
import Recognizer.Proofs.LR.MergedTables
import Recognizer.Proofs.LR.FollowLookaheads
import Recognizer.Proofs.Grammar.SameRules
import Recognizer.Proofs.LR.SameStates
import Recognizer.Proofs.LR.RuleOrder
import Recognizer.Proofs.Dfa.Isomorphism
import Recognizer.Proofs.Regex.RuleOrder
import Recognizer.Proofs.LR.Existence
import Recognizer.Proofs.Dfa.Minimality
import Recognizer.Proofs.Grammar.FirstFollow
import Recognizer.Proofs.Dfa.LeafSets
import Recognizer.Proofs.LR.LeastClosure
import Recognizer.Proofs.LR.Resolution
import Recognizer.Proofs.LR.EndMarks
import Recognizer.Proofs.Dfa.DeadStates
import Recognizer.Proofs.Regex.ErrorPositions
import Recognizer.Proofs.Regex.EscapedMembers
import Recognizer.Proofs.Grammar.LineGrammar
import Recognizer.Proofs.LR.MergedClosure
import Recognizer.Proofs.LR.Acceptance
import Recognizer.Proofs.LR.Worklist
import Recognizer.Proofs.Regex.TreeLinks
import Recognizer.Proofs.Dfa.FaithfulNames
import Recognizer.Proofs.Regex.Stages
