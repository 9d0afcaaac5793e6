import Peg.Terminal

/-! Places in a text.
At a place some characters have been read and others are still to come.  What the terminals do at
a place is told by what is still to come there. -/
namespace Peg

/-- At this position of a text, these characters are still to come. -/
def At (t : Text) (i : Int) (u : Text) : Prop := ∃ before : Text, t = before ++ u ∧ i = before.length

/-- A text begins with a run of characters of a kind, and goes on with a character of no such kind
or not at all. -/
theorem exists_run (p : Char → Bool) (u : Text) :
    ∃ v rest, u = v ++ rest ∧ (∀ c ∈ v, p c = true) ∧ ∀ c ∈ rest.head?, p c = false := by
  induction u with
  | nil => exact ⟨[],[],rfl,by simp,by simp⟩
  | cons c u ih =>
    by_cases hc : p c = true
    · obtain ⟨v,rest,rfl,hv,hr⟩ := ih
      exact ⟨c :: v,rest,rfl,by simpa [hc] using hv,hr⟩
    · exact ⟨[],c :: u,rfl,by simp,by simpa using hc⟩

/-- A text begins with a character of a kind, or it does not. -/
theorem head_not_or_cons (P : Char → Prop) (u : Text) :
    (∀ c ∈ u.head?, ¬ P c) ∨ ∃ c v, u = c :: v ∧ P c := by
  cases u with
  | nil => exact Or.inl (by simp)
  | cons c u =>
    by_cases h : P c
    · exact Or.inr ⟨c,u,rfl,h⟩
    · exact Or.inl (by simpa using h)

theorem head_ne_or_cons (c : Char) (u : Text) : (∀ d ∈ u.head?, d ≠ c) ∨ ∃ v, u = c :: v := by
  rcases head_not_or_cons (· = c) u with h | ⟨_,v,rfl,rfl⟩
  · exact Or.inl h
  · exact Or.inr ⟨v,rfl⟩

namespace At

variable {t u v : Text} {i : Int}

theorem start (t : Text) : At t 0 t := ⟨[],rfl,rfl⟩

/-- Reading some characters moves the place on by as many. -/
theorem skip (h : At t i (v ++ u)) : At t (i + v.length) u := by
  obtain ⟨before,rfl,rfl⟩ := h
  exact ⟨before ++ v,by simp,by simp⟩

theorem next {c : Char} (h : At t i (c :: u)) : At t (i + 1) u := skip (v := [c]) h

theorem nonneg (h : At t i u) : 0 ≤ i := by
  obtain ⟨before,-,rfl⟩ := h
  exact Int.natCast_nonneg _

theorem add_length (h : At t i u) : i + u.length = t.length := by
  obtain ⟨before,rfl,rfl⟩ := h
  simp

theorem drop (h : At t i u) : t.drop i.toNat = u := by
  obtain ⟨before,rfl,rfl⟩ := h
  simp

theorem ahead (h : At t i u) : t.ahead i = some u := by
  rw [Text.ahead_of_nonneg t h.nonneg,h.drop]

theorem slice (h : At t i (v ++ u)) : t.slice i (i + v.length) = v := by
  obtain ⟨before,rfl,rfl⟩ := h
  rw [← Int.natCast_add,Text.slice_natCast]
  simp [List.take_append]

theorem startsAt (h : At t i u) (word : Text) : t.startsAt word i = word.isPrefixOf u := by
  rw [Bool.eq_iff_iff,Text.startsAt_iff,List.isPrefixOf_iff_prefix]
  rw [Text.bound_of_nonneg t h.nonneg,h.drop]
  have := h.add_length
  have := h.nonneg
  exact and_iff_left (by omega)

end At

namespace Pattern

theorem run_one_of_not {s : CharSet} {c : Cursor} (h : ∀ d ∈ c.rest.head?, s.holds d = false)
    (next : Next) : run (.one s) c next = none := by
  simp only [run]
  cases hc : c.rest with
  | nil => rfl
  | cons d u =>
    have hd : s.holds d = false := h d (by simp [hc])
    simp [hd]

theorem run_one_of_holds {s : CharSet} {c : Cursor} {d : Char} {u : Text} (hc : c.rest = d :: u)
    (hd : s.holds d = true) (next : Next) :
    run (.one s) c next = next ⟨some d,c.offset + 1,u⟩ := by
  simp [run,hc,hd]

/-- A greedy loop over a set reads the longest run of its characters, and needs no more rounds than
there are characters. -/
theorem offset_repeatFrom {s : CharSet} {u v : Text} (hv : ∀ c ∈ v, s.holds c = true)
    (hu : ∀ c ∈ u.head?, s.holds c = false) {least rounds count : Nat} {last : Option Nat}
    {c : Cursor} (hc : c.rest = v ++ u) (hr : v.length < rounds) (hl : ∀ k ∈ last, k < c.offset) :
    (repeatFrom (fun c next => run (.one s) c next) least none true some rounds count last c).map
        Cursor.offset = if least ≤ count + v.length then some (c.offset + v.length) else none := by
  induction v generalizing rounds count last c with
  | nil =>
    obtain ⟨rounds,rfl⟩ := Nat.exists_eq_add_one_of_ne_zero (Nat.ne_of_gt hr)
    have hbody := run_one_of_not (c := c) (by simpa [hc] using hu)
    rw [repeatFrom]
    by_cases hn : count < least
    · simp [hn,hbody,Nat.not_le_of_gt hn]
    · simp [hn,hbody,Nat.le_of_not_lt hn]
  | cons d v ih =>
    obtain ⟨rounds,rfl⟩ := Nat.exists_eq_add_one_of_ne_zero (Nat.ne_of_gt (Nat.zero_lt_of_lt hr))
    have hr : v.length < rounds := by simpa using hr
    have hlast : (last != some c.offset) = true := by
      rw [bne_iff_ne]
      rintro rfl
      exact absurd (hl _ rfl) (Nat.lt_irrefl _)
    have hbody := run_one_of_holds hc (hv d (by simp))
    have ih (last : Option Nat) (hl : ∀ k ∈ last, k < c.offset + 1) :=
      @ih (fun e he => hv e (by simp [he])) rounds (count + 1) last ⟨some d,c.offset + 1,v ++ u⟩ rfl
        hr hl
    have hsum : count + 1 + v.length = count + (d :: v).length := by simp; omega
    have hstop : c.offset + 1 + v.length = c.offset + (d :: v).length := by simp; omega
    rw [hsum,hstop] at ih
    rw [repeatFrom]
    by_cases hn : count < least
    · rw [if_pos hn,hbody]
      exact ih last fun k hk => Nat.lt_succ_of_lt (hl k hk)
    · have hle : least ≤ count + (d :: v).length := by simp; omega
      have ih := ih (some c.offset) (by simp)
      rw [if_pos hle] at ih ⊢
      obtain ⟨e,he,ho⟩ := Option.map_eq_some_iff.mp ih
      simp [hn,hlast,hbody,he,ho]

theorem matchEnd?_run {s : CharSet} {t u v : Text} {i : Int} (h : At t i (v ++ u))
    (hv : ∀ c ∈ v, s.holds c = true) (hu : ∀ c ∈ u.head?, s.holds c = false) (least : Nat) :
    (sequence [.loop (.one s) least none true]).matchEnd? t i.toNat =
      if least ≤ v.length then some (i.toNat + v.length) else none := by
  have hc : (Cursor.ofText t i.toNat).rest = v ++ u := h.drop
  have hrounds : v.length < least + (Cursor.ofText t i.toNat).rest.length + 2 := by
    rw [hc,List.length_append]
    omega
  have hr := @offset_repeatFrom s u v hv hu least _ 0 none _ hc hrounds (by simp)
  rw [Nat.zero_add] at hr
  simp only [matchEnd?,run,runAll]
  exact hr

end Pattern

namespace Terminal

variable {t u v : Text} {i : Int}

theorem scan_finish (h : At t i u) :
    finish.scan t i = .ok (if u = [] then some i else none) := by
  have := h.add_length
  cases u with
  | nil => simp_all [scan]
  | cons c u =>
    simp only [scan,List.length_cons] at this ⊢
    rw [if_neg (by omega),if_neg (by simp)]

theorem scan_pass : pass.scan t i = .ok (some i) := rfl

theorem scan_char_nil (h : At t i []) (c : Char) : (char c).scan t i = .ok none := by
  simp [scan,scanOne,h.ahead]

theorem scan_char_cons {d : Char} (h : At t i (d :: u)) (c : Char) :
    (char c).scan t i = .ok (if d = c then some (i + 1) else none) := by
  by_cases hd : d = c
  · simp [scan,scanOne,h.ahead,hd]
  · simp [scan,scanOne,h.ahead,hd,beq_false_of_ne hd]

theorem scan_oneOf_nil (h : At t i []) (chars : Text) : (oneOf chars).scan t i = .ok none := by
  simp [scan,scanOne,h.ahead]

theorem scan_oneOf_cons {d : Char} (h : At t i (d :: u)) (chars : Text) :
    (oneOf chars).scan t i = .ok (if d ∈ chars then some (i + 1) else none) := by
  by_cases hd : d ∈ chars <;> simp [scan,scanOne,h.ahead,hd]

/-- The longest run is read: characters of the set, and none of them comes next. -/
theorem scan_runOf {chars : Text} (h : At t i (v ++ u)) (hv : ∀ c ∈ v, c ∈ chars)
    (hu : ∀ c ∈ u.head?, c ∉ chars) (least : Nat) :
    (runOf chars least).scan t i =
      .ok (if least ≤ v.length then some (i + v.length) else none) := by
  have hrun : (v ++ u).takeWhile (chars.contains ·) = v := by
    rw [List.takeWhile_append_of_pos (by simpa using hv)]
    cases u with
    | nil => simp
    | cons c u =>
      have hc : c ∉ chars := hu c rfl
      simp [hc]
  simp only [scan,scanRun,h.ahead,hrun]
  split <;> rfl

theorem scan_literal (h : At t i u) (word : Text) :
    (literal word).scan t i =
      .ok (if word.isPrefixOf u then some (i + word.length) else none) := by
  simp only [scan,h.startsAt]

/-- A pattern for a run of characters of a set reads the longest one. -/
theorem scan_regex_run {s : CharSet} (h : At t i (v ++ u)) (hv : ∀ c ∈ v, s.holds c = true)
    (hu : ∀ c ∈ u.head?, s.holds c = false) (least : Nat) (source : Text) :
    (regex (Pattern.sequence [.loop (.one s) least none true]).matcher source).scan t i =
      .ok (if least ≤ v.length then some (i + v.length) else none) := by
  have := h.nonneg
  have := h.add_length
  rw [scan,scanMatch,if_neg (by omega),if_neg (by omega),Pattern.find_matcher,
    Pattern.matchEnd?_run h hv hu]
  split
  · simp only [Option.map_some,Int.ofNat_eq_natCast,Int.natCast_add,Int.toNat_of_nonneg h.nonneg]
  · rfl

end Terminal
end Peg
