import Peg.Pattern

/-! Matchers: what patterns are to parsers.
A matcher may be any engine that finds matches inside the text.  A match of a pattern ends in what
was left of the text where it began, so that every pattern is a matcher. -/
namespace Peg

namespace Cursor

/-- A cursor further on in the same text. -/
structure Onward (c d : Cursor) : Prop where
  offset : c.offset ≤ d.offset
  rest : d.offset + d.rest.length = c.offset + c.rest.length

theorem Onward.refl (c : Cursor) : c.Onward c := ⟨Nat.le_refl _, rfl⟩

theorem Onward.trans {c d e : Cursor} (h : c.Onward d) (h' : d.Onward e) : c.Onward e :=
  ⟨Nat.le_trans h.offset h'.offset, h'.rest.trans h.rest⟩

end Cursor

namespace Pattern

/-- A match is a match of what follows, at a cursor further on. -/
def Advances (body : Cursor → Next → Option Cursor) : Prop :=
  ∀ c next d, body c next = some d → ∃ e, c.Onward e ∧ next e = some d

theorem Advances.repeatFrom {body : Cursor → Next → Option Cursor} (hb : Advances body)
    (least : Nat) (most : Option Nat) (greedy : Bool) (rounds count : Nat) (last : Option Nat) :
    Advances fun c next => Pattern.repeatFrom body least most greedy next rounds count last c := by
  induction rounds generalizing count last with
  | zero =>
    intro c next d h
    cases h
  | succ rounds ih =>
    intro c next d h
    have hround (last : Option Nat)
        (h : body c (Pattern.repeatFrom body least most greedy next rounds (count + 1) last) =
          some d) : ∃ e, c.Onward e ∧ next e = some d := by
      obtain ⟨e, he, h⟩ := hb _ _ _ h
      obtain ⟨f, hf, h⟩ := ih _ _ _ _ _ h
      exact ⟨f, he.trans hf, h⟩
    simp only [Pattern.repeatFrom] at h
    split at h
    · exact hround _ h
    · split at h
      · split at h
        · cases h
          rename_i hagain
          split at hagain
          · exact hround _ hagain
          · cases hagain
        · exact ⟨c, .refl c, h⟩
      · split at h
        · cases h
          exact ⟨c, .refl c, by assumption⟩
        · split at h
          · exact hround _ h
          · cases h

mutual
theorem advances_run : (p : Pattern) → Advances (run p)
  | .one set => by
    intro c next d h
    simp only [run] at h
    split at h
    · cases h
    · split at h
      · rename_i f rest hrest _
        exact ⟨_, ⟨by simp, by simp [hrest]; omega⟩, h⟩
      · cases h
  | .mark m => by
    intro c next d h
    simp only [run] at h
    split at h
    · exact ⟨c, .refl c, h⟩
    · cases h
  | .sequence ps => by
    intro c next d h
    exact advances_runAll ps c next d h
  | .choice ps => by
    intro c next d h
    exact advances_runAny ps c next d h
  | .loop body least most greedy => by
    intro c next d h
    exact (advances_run body).repeatFrom least most greedy _ _ _ c next d h
  | .ahead wanted body => by
    intro c next d h
    simp only [run] at h
    split at h
    · exact ⟨c, .refl c, h⟩
    · cases h

theorem advances_runAll : (ps : List Pattern) → Advances (runAll ps)
  | [] => fun c _ _ h => ⟨c, .refl c, h⟩
  | p :: ps => by
    intro c next d h
    obtain ⟨e, he, h⟩ := advances_run p _ _ _ h
    obtain ⟨f, hf, h⟩ := advances_runAll ps _ _ _ h
    exact ⟨f, he.trans hf, h⟩

theorem advances_runAny : (ps : List Pattern) → Advances (runAny ps)
  | [] => fun _ _ _ h => nomatch h
  | p :: ps => by
    intro c next d h
    simp only [runAny] at h
    split at h
    · rename_i hp
      cases h
      exact advances_run p _ _ _ hp
    · exact advances_runAny ps c next d h
end

/-- A match ends in what was left of the text. -/
theorem matchEnd?_bounds {p : Pattern} {t : Text} {offset stop : Nat}
    (h : p.matchEnd? t offset = some stop) : offset ≤ stop ∧ stop ≤ max offset t.length := by
  obtain ⟨d, hd, rfl⟩ := Option.map_eq_some_iff.mp h
  obtain ⟨e, ⟨ho, hr⟩, he⟩ := advances_run p _ _ _ hd
  cases he
  have hlength : (Cursor.ofText t offset).rest.length = t.length - offset := List.length_drop
  simp only [Cursor.ofText] at ho hr hlength
  omega

end Pattern

/-- An engine that finds where a match that begins at an offset ends.  A match goes forward and stays
in the text. -/
structure Matcher where
  find : Text → Nat → Option Nat
  bounds {t : Text} {offset stop : Nat} : offset ≤ t.length → find t offset = some stop →
    offset ≤ stop ∧ stop ≤ t.length

/-- The matcher that a pattern is. -/
def Pattern.matcher (p : Pattern) : Matcher where
  find := p.matchEnd?
  bounds ho h := by
    have := p.matchEnd?_bounds h
    omega

@[simp] theorem Pattern.find_matcher (p : Pattern) : p.matcher.find = p.matchEnd? := rfl

end Peg
