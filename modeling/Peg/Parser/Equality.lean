import Peg.Parser
import Peg.Value.Equality

/-! When two parsers are equal: words, characters, sequences, choices, options, negations, cuts and
captures by what they are made of, sets of characters as sets, and every other parser only when
it is the same node. -/
namespace Peg

namespace Terminal

/-- Whether two texts hold the same characters. -/
def sameSet (s t : Text) : Bool := s.all (t.contains ·) && t.all (s.contains ·)

theorem sameSet_iff (s t : Text) : sameSet s t = true ↔ ∀ c, c ∈ s ↔ c ∈ t := by
  simp only [sameSet, Bool.and_eq_true, List.all_eq_true, List.contains_iff_mem]
  exact ⟨fun h c => ⟨h.1 c, h.2 c⟩, fun h => ⟨fun c => (h c).1, fun c => (h c).2⟩⟩

/-- Equality of terminals by what they match, as far as it is decided so. -/
def equal? : Terminal → Terminal → Option Bool
  | literal v, literal w => some (v == w)
  | compound v, compound w => some (v.equal w)
  | char c, char d => some (c == d)
  | oneOf s, oneOf t => some (sameSet s t)
  | start, start | finish, finish | pass, pass | fail, fail | satisfying .., satisfying ..
  | runOf .., runOf .. | regex .., regex .. => none
  | _, _ => some false

end Terminal

namespace Parser

mutual
def equal : Parser → Parser → Bool
  | terminal i s, terminal j t => (s.equal? t).getD (i = j)
  | seq _ ps, seq _ qs => equalAll ps qs
  | choice ps, choice qs => equalAll ps qs
  | opt p, opt q => equal p q
  | not p, not q => equal p q
  | cut p, cut q => equal p q
  | capture p, capture q => equal p q
  | rep i .., rep j .. => i = j
  | map i .., map j .. => i = j
  | flatMap i .., flatMap j .. => i = j
  | filter i .., filter j .. => i = j
  | log i .., log j .. => i = j
  | rule r _, rule s _ => r = s
  | _, _ => false

def equalAll : List Parser → List Parser → Bool
  | [], [] => true
  | p :: ps, q :: qs => equal p q && equalAll ps qs
  | _, _ => false
end

end Parser
end Peg
