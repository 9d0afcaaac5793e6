import Peg.Parser

/-! What terminals consume.
Main statements: a terminal never goes back, stays where it is from past the end, and stays in the
text unless a tuple stands for its word; and from the first character on it raises only what it was
made to raise. -/
namespace Peg

/-- Where running can end that begins at `i`: not before it, and nowhere else if that is past the
end; and in the text or at its end, if nothing leads out of it. -/
structure Text.Reaches (t : Text) (inside : Prop) (i j : Int) : Prop where
  onward : i ≤ j
  past : t.length < i → j = i
  within : inside → j ≤ max i t.length

namespace Text.Reaches

variable {t : Text} {inside : Prop} {i j k : Int}

theorem refl (t : Text) (inside : Prop) (i : Int) : t.Reaches inside i i :=
  ⟨Int.le_refl i,fun _ => rfl,fun _ => by omega⟩

theorem trans (h : t.Reaches inside i j) (h' : t.Reaches inside j k) : t.Reaches inside i k where
  onward := Int.le_trans h.onward h'.onward
  past hi := by
    have hj := h.past hi
    rw [h'.past (by omega),hj]
  within hin := by
    have := h.within hin
    have := h'.within hin
    omega

/-- To move on from a position some of the text must be left there. -/
theorem of_le_length (h : i ≤ j) (hi : i ≤ t.length) (hj : inside → j ≤ t.length) :
    t.Reaches inside i j where
  onward := h
  past hp := by omega
  within hin := by
    have := hj hin
    omega

end Text.Reaches

namespace Terminal

variable {t : Text} {i j : Int}

/-- A tuple stands where a word is expected.  It moves on by the number of its items, however long
the item is that stands in the text. -/
def offersTuple : Terminal → Bool
  | compound (.tuple _) => true
  | _ => false

/-- What a terminal was made to raise: what its own test raises, and that what stands for its word
is no text. -/
def Raises : Terminal → Fault → Prop
  | satisfying test _, fault => ∃ c, test c = .error fault
  | compound _, fault => fault = .mismatch
  | _, _ => False

theorem of_scanOne {test : Char → Except Fault Bool} (h : scanOne t i test = .ok (some j)) :
    j = i + 1 ∧ i < t.length ∧ ∃ c, test c = .ok true := by
  unfold scanOne at h
  split at h
  · cases h
  · cases h
  · rename_i c rest ha
    have hlength := Text.length_of_ahead ha
    rw [List.length_cons] at hlength
    split at h
    · rename_i hc
      cases h
      exact ⟨rfl,by omega,c,hc⟩
    · cases h
    · cases h

theorem of_scanRun {chars : Text} {least : Nat} (h : scanRun t i chars least = .ok (some j)) :
    i ≤ j ∧ j ≤ max i t.length := by
  unfold scanRun at h
  split at h
  · cases h
  · rename_i rest ha
    have hlength := Text.length_of_ahead ha
    have hrun := (List.takeWhile_sublist (fun c => chars.contains c) (l := rest)).length_le
    dsimp only at h
    split at h
    · cases h
      omega
    · cases h

theorem of_scanMatch {matcher : Matcher} (h : scanMatch t i matcher = .ok (some j)) :
    i ≤ j ∧ j ≤ max i t.length := by
  unfold scanMatch at h
  split at h
  · cases h
  · split at h
    · cases h
    · obtain ⟨stop,hs,rfl⟩ := Option.map_eq_some_iff.mp (Except.ok.inj h)
      have := matcher.bounds (by omega) hs
      simp only [Int.ofNat_eq_natCast]
      omega

theorem of_startsAt {word : Text} (h : t.startsAt word i = true) :
    i ≤ t.length ∧ i + word.length ≤ t.length := by
  obtain ⟨hw,hb⟩ := (t.startsAt_iff word i).mp h
  have hlength := hw.length_le
  rw [List.length_drop] at hlength
  unfold Text.bound at hb hlength
  by_cases hi : i < 0
  · simp only [hi,↓reduceIte] at hb hlength
    omega
  · simp only [hi,↓reduceIte] at hb hlength
    omega

theorem le_of_offers {vs : List Value} (h : offers t i vs = .ok true) : i ≤ t.length := by
  induction vs with
  | nil => cases h
  | cons v vs ih =>
    cases v with
    | str word =>
      rw [offers] at h
      split at h
      · exact (of_startsAt (by assumption)).1
      · exact ih h
    | _ => cases h

/-- Of what can stand for a word only tuples are ever taken up. -/
theorem of_scanCompound {v : Value} (h : scanCompound t i v = .ok (some j)) :
    ∃ vs, v = .tuple vs ∧ j = i + vs.length ∧ i ≤ t.length := by
  unfold scanCompound at h
  split at h
  · obtain ⟨-,-,c,hc⟩ := of_scanOne h
    cases hc
  · obtain ⟨-,-,c,hc⟩ := of_scanOne h
    cases hc
  · obtain ⟨-,-,c,hc⟩ := of_scanOne h
    cases hc
  · rename_i vs _
    cases ho : offers t i vs with
    | error fault =>
      rw [ho] at h
      cases h
    | ok taken =>
      rw [ho] at h
      cases taken with
      | false => cases h
      | true =>
        cases h
        exact ⟨vs,rfl,rfl,le_of_offers ho⟩
  · cases h

/-- Where a terminal ends. -/
theorem reaches_of_scan {inside : Prop} {s : Terminal} (hs : inside → s.offersTuple = false)
    (h : s.scan t i = .ok (some j)) : t.Reaches inside i j := by
  cases s with
  | start | finish =>
    simp only [scan,Except.ok.injEq] at h
    split at h
    · cases h
      exact .refl t inside i
    · cases h
  | pass =>
    cases h
    exact .refl t inside i
  | fail => cases h
  | literal word =>
    simp only [scan,Except.ok.injEq] at h
    split at h
    · rename_i hw
      cases h
      have := of_startsAt hw
      exact .of_le_length (by omega) this.1 fun _ => this.2
    · cases h
  | compound v =>
    obtain ⟨vs,rfl,rfl,hi⟩ := of_scanCompound h
    exact .of_le_length (by omega) hi fun hin => nomatch hs hin
  | char c | oneOf chars | satisfying test name =>
    obtain ⟨rfl,hi,-⟩ := of_scanOne h
    exact .of_le_length (by omega) (by omega) fun _ => by omega
  | runOf chars least =>
    obtain ⟨hij,hj⟩ := of_scanRun h
    exact ⟨hij,fun hi => by omega,fun _ => hj⟩
  | regex matcher source =>
    obtain ⟨hij,hj⟩ := of_scanMatch h
    exact ⟨hij,fun hi => by omega,fun _ => hj⟩

theorem raises_of_scanOne {test : Char → Except Fault Bool} {fault : Fault} (hi : -t.length ≤ i)
    (h : scanOne t i test = .error fault) : ∃ c, test c = .error fault := by
  unfold scanOne at h
  split at h
  · rename_i ha
    have := (t.ahead_eq_none_iff i).mp ha
    omega
  · cases h
  · rename_i c rest ha
    split at h
    · cases h
    · cases h
    · rename_i fault' hc
      cases h
      exact ⟨c,hc⟩

theorem offers_error {vs : List Value} {fault : Fault} (h : offers t i vs = .error fault) :
    fault = .mismatch := by
  induction vs with
  | nil => cases h
  | cons v vs ih =>
    cases v with
    | str word =>
      rw [offers] at h
      split at h
      · cases h
      · exact ih h
    | _ => exact (Except.error.inj h).symm

/-- No terminal asks for a character before the first one, if it starts no further back than
that. -/
theorem raises_of_scan {s : Terminal} {fault : Fault} (hi : -t.length ≤ i)
    (h : s.scan t i = .error fault) : s.Raises fault := by
  cases s with
  | start | finish | pass | fail | literal word => cases h
  | compound v =>
    change scanCompound t i v = .error fault at h
    unfold scanCompound at h
    split at h
    · obtain ⟨c,hc⟩ := raises_of_scanOne hi h
      cases hc
    · obtain ⟨c,hc⟩ := raises_of_scanOne hi h
      cases hc
    · obtain ⟨c,hc⟩ := raises_of_scanOne hi h
      cases hc
    · rename_i vs _
      cases ho : offers t i vs with
      | error fault' =>
        rw [ho] at h
        cases h
        exact offers_error ho
      | ok taken =>
        rw [ho] at h
        cases h
    · exact (Except.error.inj h).symm
  | char c | oneOf chars =>
    obtain ⟨d,hd⟩ := raises_of_scanOne hi h
    cases hd
  | satisfying test name => exact raises_of_scanOne hi h
  | runOf chars least =>
    change scanRun t i chars least = .error fault at h
    unfold scanRun at h
    split at h
    · rename_i ha
      have := (t.ahead_eq_none_iff i).mp ha
      omega
    · dsimp only at h
      split at h
      · cases h
      · cases h
  | regex matcher source =>
    change scanMatch t i matcher = .error fault at h
    unfold scanMatch at h
    split at h
    · cases h
    · rw [if_neg (by omega)] at h
      cases h

end Terminal

namespace Parser

/-- What a node was made to raise: what its terminal or its own function raises. -/
def Raises : Parser → Fault → Prop
  | terminal _ s, fault => s.Raises fault
  | map _ _ f _, fault => ∃ v, f v = .error fault
  | flatMap _ _ next _, fault => ∃ v, next v = .error fault
  | filter _ _ test _, fault => ∃ v, test v = .error fault
  | _, _ => False

end Parser
end Peg
