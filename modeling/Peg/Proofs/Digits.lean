import Peg.Decimal.Reading

/-! Texts of decimal digits: which characters they are made of, and what they are read as.
Main statement: a whole number is read exactly from a sign and digits, however many. -/
namespace Peg

/-- What can be checked for each member of a list holds of every member. -/
theorem forall_mem_of_all {α : Type} {P : α → Prop} [DecidablePred P] {l : List α}
    (h : (l.all fun a => decide (P a)) = true) : ∀ a ∈ l, P a := by
  simpa using h

namespace Decimal

theorem toNat_of_isDigit {c : Char} (h : c.isDigit = true) : 48 ≤ c.toNat ∧ c.toNat ≤ 57 := by
  simp only [Char.isDigit,Bool.and_eq_true,decide_eq_true_eq] at h
  exact h

/-- What holds of the ten digits, one after another, holds of every digit. -/
theorem of_isDigit {P : Char → Prop} (h : ∀ n < 58, 48 ≤ n → P (Char.ofNat n)) {c : Char}
    (hc : c.isDigit = true) : P c := by
  obtain ⟨hl,hu⟩ := toNat_of_isDigit hc
  have hp := h c.toNat (by omega) hl
  rwa [Char.ofNat_toNat] at hp

theorem mem_digits_iff {c : Char} : c ∈ "0123456789".toList ↔ c.isDigit = true := by
  constructor
  · intro h
    have ha : ∀ c ∈ "0123456789".toList, c.isDigit = true := forall_mem_of_all (by decide)
    exact ha c h
  · exact of_isDigit (by decide)

theorem digitValue?_of_isDigit {c : Char} (h : c.isDigit = true) :
    Text.digitValue? c = some (c.toNat - 48) := by
  obtain ⟨hl,hu⟩ := toNat_of_isDigit h
  simp only [Text.digitValue?,Text.digits,List.find?_cons,hl,hu,decide_true,Bool.and_self,
    Option.map_some,Option.some.injEq]
  omega

theorem isBlank_of_isDigit {c : Char} (h : c.isDigit = true) : isBlank c = false :=
  of_isDigit (P := fun c => isBlank c = false) (by decide) h

theorem ne_underscore_of_isDigit {c : Char} (h : c.isDigit = true) : c ≠ '_' := by
  rintro rfl
  exact absurd h (by decide)

theorem not_sign_of_isDigit {c : Char} (h : c.isDigit = true) : c ∉ "+-".toList :=
  of_isDigit (P := fun c => c ∉ "+-".toList) (by decide) h

/-- A text that neither begins nor ends with a blank is not trimmed. -/
theorem trim_eq_self {t : Text} (hf : ∀ c ∈ t.head?, isBlank c = false)
    (hl : ∀ c ∈ t.getLast?, isBlank c = false) : trim t = t := by
  have hs (u : Text) (h : ∀ c ∈ u.head?, isBlank c = false) : trimStart u = u := by
    cases u with
    | nil => rfl
    | cons c u => simp [trimStart,h c rfl]
  rw [trim,hs t hf,hs t.reverse (by simpa using hl),List.reverse_reverse]

theorem moreDigits_digits (count value : Nat) {ds : Text} (h : ∀ c ∈ ds, c.isDigit = true) :
    moreDigits count value ds =
      some ⟨count + ds.length,ds.foldl (fun n c => 10 * n + (c.toNat - 48)) value,[]⟩ := by
  induction ds generalizing count value with
  | nil => rfl
  | cons c ds ih =>
    have hc := h c (by simp)
    have hu := ne_underscore_of_isDigit hc
    rw [moreDigits.eq_def]
    split
    · rename_i he
      cases he
    · rename_i he
      cases he
      exact absurd rfl hu
    · rename_i he
      cases he
      exact absurd rfl hu
    · rename_i he
      cases he
      rw [digitValue?_of_isDigit hc]
      simp only [ih _ _ fun d hd => h d (by simp [hd]),List.length_cons,List.foldl_cons]
      congr 2
      omega

theorem digits?_digits {ds : Text} (hne : ds ≠ []) (h : ∀ c ∈ ds, c.isDigit = true) :
    digits? ds = some ⟨ds.length,digitsValue ds,[]⟩ := by
  cases ds with
  | nil => exact absurd rfl hne
  | cons c ds =>
    rw [digits?,digitValue?_of_isDigit (h c (by simp)),Option.bind_some,
      moreDigits_digits _ _ fun d hd => h d (by simp [hd])]
    simp [digitsValue,Nat.add_comm]

/-- Digits with or without a sign, and the whole number that they say. -/
inductive Signed : Text → Int → Prop
  | plain {ds : Text} : ds ≠ [] → (∀ c ∈ ds, c.isDigit = true) → Signed ds (digitsValue ds)
  | plus {ds : Text} : ds ≠ [] → (∀ c ∈ ds, c.isDigit = true) → Signed ('+' :: ds) (digitsValue ds)
  | minus {ds : Text} : ds ≠ [] → (∀ c ∈ ds, c.isDigit = true) →
    Signed ('-' :: ds) (-digitsValue ds)

theorem getLast?_digits {ds : Text} (h : ∀ c ∈ ds, c.isDigit = true) :
    ∀ c ∈ ds.getLast?, isBlank c = false :=
  fun c hc => isBlank_of_isDigit (h c (List.mem_of_getLast? hc))

theorem trim_digits {ds : Text} (h : ∀ c ∈ ds, c.isDigit = true) : trim ds = ds :=
  trim_eq_self (fun c hc => isBlank_of_isDigit (h c (List.mem_of_head? hc))) (getLast?_digits h)

theorem trim_cons_digits {s : Char} {ds : Text} (hs : isBlank s = false) (hne : ds ≠ [])
    (h : ∀ c ∈ ds, c.isDigit = true) : trim (s :: ds) = s :: ds := by
  refine trim_eq_self (by simpa using hs) ?_
  rw [List.getLast?_cons,List.getLast?_eq_some_getLast hne]
  simpa using isBlank_of_isDigit (h _ (List.getLast_mem hne))

/-- Without a limit on the digits, what signed digits say is read exactly. -/
theorem integer_signed {u : Text} {n : Int} (h : Signed u n) : integer none u = .ok n := by
  cases h with
  | plain hne h =>
    have hs : sign u = (false,u) := by
      unfold sign
      split
      · exact absurd (h _ (List.mem_cons_self ..)) (by decide)
      · exact absurd (h _ (List.mem_cons_self ..)) (by decide)
      · rfl
    simp [integer,trim_digits h,hs,digits?_digits hne h]
  | plus hne h => simp [integer,trim_cons_digits (s := '+') (by decide) hne h,sign,digits?_digits hne h]
  | minus hne h => simp [integer,trim_cons_digits (s := '-') (by decide) hne h,sign,digits?_digits hne h]

end Decimal
end Peg
