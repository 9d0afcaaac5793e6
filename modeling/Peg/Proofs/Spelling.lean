import Peg.Proofs.Digits
import Peg.Pattern.Reading
import Peg.Text.Quoted

/-! Quoted texts and numbers in what is written.
Main statements: where a quoted text ends can be told from what it begins, and so can a number that
no digit follows; both are told from how they are written. -/
namespace Peg

namespace Decimal

/-- The digits of a number, read one after another, say the number. -/
theorem foldlM_toDigits {base : Nat} (hb : 1 < base) {step : Nat → Char → Option Nat}
    (hstep : ∀ m, ∀ d < base, step m d.digitChar = some (base * m + d)) (n : Nat) :
    (Nat.toDigits base n).foldlM step 0 = some n := by
  induction n using Nat.strongRecOn with
  | ind n ih =>
    rw [Nat.toDigits_eq_if hb]
    by_cases h : n < base
    · simp [h,hstep 0 n h]
    · have hlast := hstep (n / base) (n % base) (Nat.mod_lt n (by omega))
      rw [if_neg h,List.foldlM_append,ih (n / base) (Nat.div_lt_self (by omega) hb)]
      simp [hlast,Nat.div_add_mod]

theorem digitsValue_ofNat (n : Nat) : digitsValue (Text.ofNat n) = n := by
  have hdigit : ∀ d < 10, d.digitChar.toNat - 48 = d := by decide
  have h : (Nat.toDigits 10 n).foldlM (fun m c => pure (10 * m + (c.toNat - 48))) 0 = some n :=
    foldlM_toDigits (by decide) (fun m d hd => by rw [hdigit d hd]; rfl) n
  rw [List.foldlM_pure] at h
  exact Option.some.inj h

end Decimal

namespace Text

theorem isDigit_of_mem_ofNat {n : Nat} {c : Char} (h : c ∈ ofNat n) : c.isDigit = true :=
  Nat.isDigit_of_mem_toDigits (by decide) (by decide) h

/-- A number is told from its digits where no digit follows them. -/
theorem ofNat_append_inj {m n : Nat} {u v : Text} (hu : ∀ c ∈ u.head?, c.isDigit = false)
    (hv : ∀ c ∈ v.head?, c.isDigit = false) (h : ofNat m ++ u = ofNat n ++ v) : m = n ∧ u = v := by
  have hdigits (n : Nat) (u : Text) (hu : ∀ c ∈ u.head?, c.isDigit = false) :
      (ofNat n ++ u).takeWhile Char.isDigit = ofNat n := by
    rw [List.takeWhile_append_of_pos fun c hc => isDigit_of_mem_ofNat hc]
    cases u with
    | nil => simp
    | cons c u => simp [hu c rfl]
  have hmn : ofNat m = ofNat n := by rw [← hdigits m u hu,h,hdigits n v hv]
  refine ⟨?_,List.append_cancel_left (hmn ▸ h)⟩
  rw [← Decimal.digitsValue_ofNat m,hmn,Decimal.digitsValue_ofNat]

/-- Hexadecimal digits after zeros say the number. -/
theorem hexValue?_hex (width n : Nat) : Pattern.hexValue? (hex width n) = some n := by
  have hdigit : ∀ d < 16, d.digitChar.isDigit = true ∧ d.digitChar.toNat - 48 = d ∨
      d.digitChar.isDigit = false ∧ ('a' ≤ d.digitChar && d.digitChar ≤ 'f') = true ∧
        d.digitChar.toNat - 87 = d := by decide
  rw [hex,Pattern.hexValue?,List.foldlM_append]
  generalize width - _ = zeros
  induction zeros with
  | zero =>
    refine Decimal.foldlM_toDigits (by decide) (fun m d hd => ?_) n
    rcases hdigit d hd with ⟨hd,hv⟩ | ⟨hd,hl,hv⟩
    · simp [hd,hv]
    · simp [hd,hl,hv]
  | succ zeros ih => simpa [List.replicate_succ] using ih

theorem length_hex {width n : Nat} (hw : 0 < width) (h : n < Nat.pow 16 width) :
    (hex width n).length = width := by
  have := (Nat.length_toDigits_le_iff (by decide) hw).mpr h
  simp only [hex,List.length_append,List.length_replicate]
  omega

theorem readHex_hex {width : Nat} (hw : 0 < width) {c : Char} (h : c.toNat < Nat.pow 16 width)
    (u : Text) :
    Pattern.readHex width (hex width c.toNat ++ u) = some (c,u) := by
  have hl := length_hex hw h
  rw [Pattern.readHex,if_neg (by simp [hl]),List.take_left' hl,List.drop_left' hl,hexValue?_hex]
  simp

/-- What a backslash and the characters after it stand for between quotes. -/
def readEscape : Text → Option (Char × Text)
  | [] => none
  | 'n' :: u => some ('\n',u)
  | 'r' :: u => some ('\r',u)
  | 't' :: u => some ('\t',u)
  | 'x' :: u => Pattern.readHex 2 u
  | 'u' :: u => Pattern.readHex 4 u
  | 'U' :: u => Pattern.readHex 8 u
  | c :: u => some (c,u)

/-- The first character that stands between quotes, and what is written behind it. -/
def readEscaped : Text → Option (Char × Text)
  | [] => none
  | c :: u => if c = '\\' then readEscape u else some (c,u)

/-- Both quotes that are used. -/
def Quotes (q : Char) : Prop := q = '\'' ∨ q = '"'

theorem quotes_quoteFor (t : Text) : Quotes (quoteFor t) := by
  unfold quoteFor
  split
  · exact .inr rfl
  · exact .inl rfl

variable {q : Char}

theorem readEscaped_escape (hq : Quotes q) (c : Char) (u : Text) :
    readEscaped (escape q c ++ u) = some (c,u) := by
  unfold escape
  split
  · rename_i h
    rcases h with rfl | rfl
    · rcases hq with rfl | rfl <;> rfl
    · rfl
  split
  · rename_i h
    rw [h]
    rfl
  split
  · rename_i h
    rw [h]
    rfl
  split
  · rename_i h
    rw [h]
    rfl
  split
  · rename_i h _ _ _ _
    exact if_neg fun hc => h (.inr hc)
  split
  · rename_i h
    exact readHex_hex (Nat.succ_pos 1) (h : c.toNat < 16 ^ 2) u
  split
  · rename_i h
    exact readHex_hex (Nat.succ_pos 3) (h : c.toNat < 16 ^ 4) u
  · exact readHex_hex (Nat.succ_pos 7) (c.val.toNat_lt : c.toNat < 16 ^ 8) u

/-- A quote between quotes stands after a backslash. -/
theorem head?_escape (hq : Quotes q) (c : Char) (u : Text) : (escape q c ++ u).head? ≠ some q := by
  intro h
  have hs : '\\' ≠ q := by rcases hq with rfl | rfl <;> decide
  obtain ⟨v,hv⟩ := List.head?_eq_some_iff.mp h
  have hread := readEscaped_escape hq c u
  rw [hv,readEscaped,if_neg (Ne.symm hs)] at hread
  obtain ⟨rfl,-⟩ : q = c ∧ v = u := by simpa using hread
  rw [escape,if_pos (.inl rfl)] at hv
  exact hs (List.cons.inj hv).1

/-- Between quotes a text is told up to the closing quote. -/
theorem escaped_append_inj (hq : Quotes q) {s t u v : Text}
    (h : s.flatMap (escape q) ++ q :: u = t.flatMap (escape q) ++ q :: v) : s = t ∧ u = v := by
  induction s generalizing t with
  | nil =>
    cases t with
    | nil => simpa using h
    | cons c t =>
      rw [List.flatMap_cons,List.append_assoc] at h
      exact absurd (congrArg List.head? h).symm (head?_escape hq c _)
  | cons c s ih =>
    cases t with
    | nil =>
      rw [List.flatMap_cons,List.append_assoc] at h
      exact absurd (congrArg List.head? h) (head?_escape hq c _)
    | cons d t =>
      rw [List.flatMap_cons,List.append_assoc,List.flatMap_cons,List.append_assoc] at h
      have hread := congrArg readEscaped h
      rw [readEscaped_escape hq,readEscaped_escape hq,Option.some.injEq,Prod.mk.injEq] at hread
      obtain ⟨rfl,hrest⟩ := hread
      obtain ⟨rfl,huv⟩ := ih hrest
      exact ⟨rfl,huv⟩

/-- A text is told from its quoted form, whatever follows. -/
theorem quoted_append_inj {s t u v : Text} (h : quoted s ++ u = quoted t ++ v) : s = t ∧ u = v := by
  simp only [quoted,List.cons_append,List.append_assoc,List.nil_append] at h
  obtain ⟨hq,h⟩ := List.cons.inj h
  rw [hq] at h
  exact escaped_append_inj (quotes_quoteFor t) h

end Text
end Peg
