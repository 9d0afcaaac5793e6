import Mathlib.Data.List.Induction
import Mathlib.Data.List.Nodup
import Mathlib.Data.Nat.Digits.Defs
import Peg.Proofs.Digits
import Peg.Samples.Json

/-! The language of JSON texts, with the values that they stand for.
Main statements: the characters of a string can be told apart in one way only, every number can be
read, and the dictionary of some members is told by its keys and by what stands under each. -/
namespace Peg.Samples.Json

/-! ## Strings -/

def blanks : Text := " \r\n\t".toList

def Blank (u : Text) : Prop := ∀ c ∈ u, c ∈ blanks

/-- A character after a backslash, and the character that both stand for. -/
inductive Escape : Char → Char → Prop
  | quote : Escape '"' '"'
  | backslash : Escape '\\' '\\'
  | slash : Escape '/' '/'
  | backspace : Escape 'b' '\x08'
  | formFeed : Escape 'f' '\x0c'
  | lineFeed : Escape 'n' '\n'
  | carriageReturn : Escape 'r' '\r'
  | tab : Escape 't' '\t'

def hexDigits : Text := "0123456789abcdefABCDEF".toList

/-- The number that hexadecimal digits say, in either case. -/
def hexNumber (ds : Text) : Nat :=
  Nat.ofDigits 16 (ds.reverse.map fun c => "0123456789abcdef".toList.idxOf c.toLower)

/-- A text inside quotes that stands for one character; half of a surrogate pair, which is no
character, is taken for the null character. -/
inductive Character : Text → Char → Prop
  | plain {c : Char} : c ≠ '"' → c ≠ '\\' → Character [c] c
  | escape {e c : Char} : Escape e c → Character ['\\',e] c
  | unicode {ds : Text} : ds.length = 4 → (∀ c ∈ ds, c ∈ hexDigits) →
    Character ('\\' :: 'u' :: ds) (Char.ofNat (hexNumber ds))

/-- A text inside quotes, and what it stands for. -/
inductive Characters : Text → Text → Prop
  | nil : Characters [] []
  | cons {w u s : Text} {c : Char} :
    Character w c → Characters u s → Characters (w ++ u) (c :: s)

/-- No character of a string begins here. -/
def Stuck (u : Text) : Prop := ∀ w c rest, Character w c → u ≠ w ++ rest

theorem Escape.unique {e c d : Char} (h : Escape e c) (h' : Escape e d) : c = d := by
  cases h <;> cases h' <;> rfl

theorem not_escape_u {c : Char} : ¬ Escape 'u' c := fun h => nomatch h

theorem escape_iff {e c : Char} : Escape e c ↔ escapes.lookup e = some c := by
  constructor
  · rintro (_ | _ | _) <;> rfl
  · intro h
    obtain ⟨l,r,he,-⟩ := List.lookup_eq_some_iff.mp h
    have hm : (e,c) ∈ escapes := by rw [he]; simp
    simp only [escapes,List.mem_cons,Prod.mk.injEq,List.not_mem_nil,or_false] at hm
    rcases hm with ⟨rfl,rfl⟩ | ⟨rfl,rfl⟩ | ⟨rfl,rfl⟩ | ⟨rfl,rfl⟩ | ⟨rfl,rfl⟩ | ⟨rfl,rfl⟩ |
      ⟨rfl,rfl⟩ | ⟨rfl,rfl⟩ <;> constructor

theorem mem_escapes_iff {e : Char} : e ∈ escapes.map Prod.fst ↔ ∃ c, Escape e c := by
  simp only [escape_iff]
  constructor
  · intro h
    exact Option.isSome_iff_exists.mp (by simpa [List.lookup_isSome_iff] using h)
  · rintro ⟨c,h⟩
    have hs : (escapes.lookup e).isSome = true := by rw [h]; rfl
    simpa [List.lookup_isSome_iff] using hs

/-- Where one character ends is told by the text itself. -/
theorem Character.unique {w w' r r' : Text} {c c' : Char} (h : Character w c)
    (h' : Character w' c') (he : w ++ r = w' ++ r') : w = w' ∧ c = c' ∧ r = r' := by
  cases h with
  | plain hq hb =>
    cases h' with
    | plain => simp_all
    | escape => simp_all
    | unicode => simp_all
  | escape h =>
    cases h' with
    | plain _ hb => exact absurd (List.cons.inj he).1.symm hb
    | escape h' =>
      simp only [List.cons_append,List.nil_append,List.cons.injEq,true_and] at he
      obtain ⟨rfl,rfl⟩ := he
      exact ⟨rfl,h.unique h',rfl⟩
    | unicode =>
      simp only [List.cons_append,List.nil_append,List.cons.injEq,true_and] at he
      exact absurd (he.1 ▸ h) not_escape_u
  | unicode hl =>
    cases h' with
    | plain _ hb => exact absurd (List.cons.inj he).1.symm hb
    | escape h' =>
      simp only [List.cons_append,List.nil_append,List.cons.injEq,true_and] at he
      exact absurd (he.1 ▸ h') not_escape_u
    | unicode hl' =>
      simp only [List.cons_append,List.cons.injEq,true_and] at he
      obtain ⟨rfl,rfl⟩ := List.append_inj he (hl.trans hl'.symm)
      exact ⟨rfl,rfl,rfl⟩

theorem Characters.append {u u' s s' : Text} (h : Characters u s) (h' : Characters u' s') :
    Characters (u ++ u') (s ++ s') := by
  induction h with
  | nil => exact h'
  | cons hw _ ih => simpa using Characters.cons hw ih

theorem Character.characters {w : Text} {c : Char} (h : Character w c) : Characters w [c] := by
  simpa using Characters.cons h .nil

/-- Characters that are neither quotes nor backslashes stand for themselves. -/
theorem characters_plain {u : Text} (h : ∀ c ∈ u, c ≠ '"' ∧ c ≠ '\\') : Characters u u := by
  induction u with
  | nil => exact .nil
  | cons c u ih =>
    have hc := h c (by simp)
    exact .cons (.plain hc.1 hc.2) (ih fun d hd => h d (by simp [hd]))

/-- What stands up to a place where no character begins stands for one text only. -/
theorem Characters.unique {u u' s s' r r' : Text} (h : Characters u s) (h' : Characters u' s')
    (he : u ++ r = u' ++ r') (hr : Stuck r) (hr' : Stuck r') : u = u' ∧ s = s' := by
  induction h generalizing u' s' with
  | nil =>
    cases h' with
    | nil => exact ⟨rfl,rfl⟩
    | cons hw _ => exact absurd (by simpa using he) (hr _ _ _ hw)
  | cons hw _ ih =>
    cases h' with
    | nil => exact absurd (by simpa using he.symm) (hr' _ _ _ hw)
    | cons hw' hu' =>
      rw [List.append_assoc,List.append_assoc] at he
      obtain ⟨rfl,rfl,he⟩ := hw.unique hw' he
      obtain ⟨rfl,rfl⟩ := ih hu' he
      exact ⟨rfl,rfl⟩

theorem stuck_quote (rest : Text) : Stuck ('"' :: rest) := by
  intro w c r h
  cases h with
  | plain hq _ => simpa using fun h => absurd h.symm hq
  | escape | unicode => simp

/-- One hexadecimal digit more. -/
theorem hexValue?_concat {ds : Text} {c : Char} {n : Nat} (h : Pattern.hexValue? ds = some n)
    (hc : c ∈ hexDigits) : Pattern.hexValue? (ds ++ [c]) =
      some (16 * n + "0123456789abcdef".toList.idxOf c.toLower) := by
  have hcases : ∀ c ∈ hexDigits,
      c.isDigit = true ∧ c.toNat - 48 = "0123456789abcdef".toList.idxOf c.toLower ∨
      c.isDigit = false ∧ ('a' ≤ c && c ≤ 'f') = true ∧
        c.toNat - 87 = "0123456789abcdef".toList.idxOf c.toLower ∨
      c.isDigit = false ∧ ('a' ≤ c && c ≤ 'f') = false ∧ ('A' ≤ c && c ≤ 'F') = true ∧
        c.toNat - 55 = "0123456789abcdef".toList.idxOf c.toLower := forall_mem_of_all (by decide)
  rw [Pattern.hexValue?] at h ⊢
  rw [List.foldlM_append,h]
  simp only [Option.bind_eq_bind,Option.bind_some,List.foldlM_cons,List.foldlM_nil]
  rcases hcases c hc with ⟨hd,hv⟩ | ⟨hd,hl,hv⟩ | ⟨hd,hl,hu,hv⟩
  · simp [hd,hv]
  · simp [hd,hl,hv]
  · simp [hd,hl,hu,hv]

/-- Hexadecimal digits are read as the number that they say. -/
theorem hexValue?_digits {ds : Text} (h : ∀ c ∈ ds, c ∈ hexDigits) :
    Pattern.hexValue? ds = some (hexNumber ds) := by
  induction ds using List.reverseRecOn with
  | nil => rfl
  | append_singleton ds c ih =>
    rw [hexValue?_concat (ih fun d hd => h d (by simp [hd])) (h c (by simp))]
    simp [hexNumber,Nat.ofDigits_cons,Nat.add_comm]

/-! ## Numbers -/

inductive Minus : Text → Prop
  | none : Minus []
  | minus : Minus ['-']

/-- Zero, or digits that do not begin with it. -/
inductive Whole : Text → Prop
  | zero : Whole ['0']
  | digits {d : Char} {ds : Text} :
    d ∈ "123456789".toList → (∀ c ∈ ds, c.isDigit = true) → Whole (d :: ds)

inductive Fraction : Text → Prop
  | none : Fraction []
  | digits {ds : Text} : ds ≠ [] → (∀ c ∈ ds, c.isDigit = true) → Fraction ('.' :: ds)

inductive Exponent : Text → Prop
  | none : Exponent []
  | digits {e : Char} {s ds : Text} : e ∈ "eE".toList → s = [] ∨ s = ['+'] ∨ s = ['-'] →
    ds ≠ [] → (∀ c ∈ ds, c.isDigit = true) → Exponent (e :: (s ++ ds))

inductive IsNumber : Text → Prop
  | parts {m w f e : Text} :
    Minus m → Whole w → Fraction f → Exponent e → IsNumber (m ++ (w ++ (f ++ e)))

/-- The characters that numbers are made of. -/
def numerals : Text := "0123456789+-.eE".toList

theorem mem_numerals_of_isDigit {c : Char} (h : c.isDigit = true) : c ∈ numerals :=
  Decimal.of_isDigit (P := fun c => c ∈ numerals) (by decide) h

theorem isDigit_of_mem_nonzero {c : Char} (h : c ∈ "123456789".toList) : c.isDigit = true := by
  have ha : ∀ c ∈ "123456789".toList, c.isDigit = true := forall_mem_of_all (by decide)
  exact ha c h

theorem Whole.isDigit {w : Text} (h : Whole w) : ∀ c ∈ w, c.isDigit = true := by
  cases h with
  | zero => simp
  | digits hd hs => exact List.forall_mem_cons.mpr ⟨isDigit_of_mem_nonzero hd,hs⟩

theorem Whole.ne_nil {w : Text} (h : Whole w) : w ≠ [] := by
  cases h <;> simp

theorem Minus.numerals {m : Text} (h : Minus m) : ∀ c ∈ m, c ∈ numerals := by
  cases h with
  | none => simp
  | minus => exact List.forall_mem_singleton.mpr (by decide)

theorem Fraction.numerals {f : Text} (h : Fraction f) : ∀ c ∈ f, c ∈ numerals := by
  cases h with
  | none => simp
  | digits _ hd =>
    exact List.forall_mem_cons.mpr ⟨by decide,fun c hc => mem_numerals_of_isDigit (hd c hc)⟩

theorem Exponent.numerals {e : Text} (h : Exponent e) : ∀ c ∈ e, c ∈ numerals := by
  cases h with
  | none => simp
  | digits he hs _ hd =>
    have hm : ∀ c ∈ "eE".toList, c ∈ Json.numerals := forall_mem_of_all (by decide)
    refine List.forall_mem_cons.mpr ⟨hm _ he,List.forall_mem_append.mpr ⟨?_,?_⟩⟩
    · rcases hs with rfl | rfl | rfl
      · simp
      · exact List.forall_mem_singleton.mpr (by decide)
      · exact List.forall_mem_singleton.mpr (by decide)
    · exact fun c hc => mem_numerals_of_isDigit (hd c hc)

theorem IsNumber.numerals {u : Text} (h : IsNumber u) : ∀ c ∈ u, c ∈ numerals := by
  obtain ⟨hm,hw,hf,he⟩ := h
  simp only [List.forall_mem_append]
  exact ⟨hm.numerals,fun c hc => mem_numerals_of_isDigit (hw.isDigit c hc),hf.numerals,he.numerals⟩

theorem trim_numerals {u : Text} (h : ∀ c ∈ u, c ∈ numerals) : Decimal.trim u = u := by
  have hb : ∀ c ∈ numerals, Decimal.isBlank c = false := forall_mem_of_all (by decide)
  exact Decimal.trim_eq_self (fun c hc => hb c (h c (List.mem_of_head? hc)))
    fun c hc => hb c (h c (List.mem_of_getLast? hc))

/-- There are no digits of other scripts and no underscores to replace. -/
theorem plain?_numerals (after : Bool) {u : Text} (h : ∀ c ∈ u, c ∈ numerals) :
    Decimal.plain? after u = some u := by
  have hn : ∀ c ∈ numerals, c ≠ '_' ∧
      (Text.digitValue? c = none ∨ Text.digitValue? c = some (c.toNat - 48) ∧
        Char.ofNat (48 + (c.toNat - 48)) = c) := forall_mem_of_all (by decide)
  induction u generalizing after with
  | nil => rfl
  | cons c u ih =>
    obtain ⟨hu,hd⟩ := hn c (h c (by simp))
    have ih (after : Bool) := ih after fun d hd => h d (by simp [hd])
    rw [Decimal.plain?.eq_def]
    split
    · rename_i he
      cases he
    · rename_i he
      cases he
      exact absurd rfl hu
    · rename_i he
      cases he
      exact absurd rfl hu
    · rename_i he
      cases he
      rcases hd with hd | ⟨hd,hc⟩
      · simp [hd,ih]
      · simp [hd,ih,hc]

theorem sign_of_isDigit {c : Char} {u : Text} (h : c.isDigit = true) :
    Decimal.sign (c :: u) = (false,c :: u) := by
  unfold Decimal.sign
  split
  · rename_i he
    cases he
    cases h
  · rename_i he
    cases he
    cases h
  · rfl

theorem sign_digits {ds : Text} (h : ∀ c ∈ ds, c.isDigit = true) :
    Decimal.sign ds = (false,ds) := by
  cases ds with
  | nil => rfl
  | cons c ds => exact sign_of_isDigit (h c (by simp))

theorem Exponent.read {e : Text} (h : Exponent e) : ∃ n, Decimal.exponent? e = some n := by
  cases h with
  | none => exact ⟨0,rfl⟩
  | @digits e s ds he hs hne hd =>
    have hmark : e = 'e' ∨ e = 'E' := by simpa using he
    have hall : ds.all Char.isDigit = true := List.all_eq_true.mpr hd
    have hsign : ∃ negative, Decimal.sign (s ++ ds) = (negative,ds) := by
      rcases hs with rfl | rfl | rfl
      · exact ⟨false,sign_digits hd⟩
      · exact ⟨false,rfl⟩
      · exact ⟨true,rfl⟩
    obtain ⟨negative,hsign⟩ := hsign
    simp [Decimal.exponent?,hmark,hsign,hne,hall]

theorem not_isDigit_of_mark {c : Char} (h : c ∈ "eE".toList) : c.isDigit = false ∧ c ≠ '.' := by
  have ha : ∀ c ∈ "eE".toList, c.isDigit = false ∧ c ≠ '.' := forall_mem_of_all (by decide)
  exact ha c h

theorem not_isDigit_of_exponent {e : Text} (h : Exponent e) :
    ∀ c ∈ e.head?, c.isDigit = false ∧ c ≠ '.' := by
  cases h with
  | none => simp
  | digits he => simpa using not_isDigit_of_mark he

/-- Digits in front of something else are all that is taken and dropped. -/
theorem span_digits {ds r : Text} (hd : ∀ c ∈ ds, c.isDigit = true)
    (hr : ∀ c ∈ r.head?, c.isDigit = false) :
    (ds ++ r).takeWhile Char.isDigit = ds ∧ (ds ++ r).dropWhile Char.isDigit = r := by
  rw [List.takeWhile_append_of_pos hd,List.dropWhile_append_of_pos hd]
  cases r with
  | nil => simp
  | cons c r =>
    have hc := hr c rfl
    simp [hc]

theorem lower_ne_of_isDigit {c : Char} {u word : Text} (h : c.isDigit = true)
    (hw : ∀ d ∈ word.head?, d.isDigit = false) : (c :: u).map Char.toLower ≠ word := by
  have hl : c.toLower.isDigit = true :=
    Decimal.of_isDigit (P := fun c => c.toLower.isDigit = true) (by decide) h
  rintro rfl
  exact absurd hl (by simp [hw c.toLower rfl])

theorem fraction_parts {f e : Text} (hf : Fraction f) (he : Exponent e) :
    Decimal.fraction (f ++ e) = (f.tail,e) := by
  have hhead := not_isDigit_of_exponent he
  cases hf with
  | none =>
    unfold Decimal.fraction
    split
    · rename_i h
      exact absurd rfl (hhead '.' (congrArg List.head? h)).2
    · rfl
  | digits hne hd =>
    obtain ⟨ht,hr⟩ := span_digits hd fun c hc => (hhead c hc).1
    exact Prod.ext ht hr

theorem unsigned?_parts {w f e : Text} (hw : Whole w) (hf : Fraction f) (he : Exponent e) :
    ∃ x, Decimal.unsigned? (w ++ (f ++ e)) = some x := by
  obtain ⟨n,hn⟩ := he.read
  have hhead := not_isDigit_of_exponent he
  have hspan : ∀ c ∈ (f ++ e).head?, c.isDigit = false := by
    cases hf with
    | none => exact fun c hc => (hhead c hc).1
    | digits => simp
  obtain ⟨htake,hdrop⟩ := span_digits hw.isDigit hspan
  have hword (word : Text) (h : ∀ d ∈ word.head?, d.isDigit = false) :
      (w ++ (f ++ e)).map Char.toLower ≠ word := by
    cases w with
    | nil => exact absurd rfl hw.ne_nil
    | cons c w => exact lower_ne_of_isDigit (hw.isDigit c (by simp)) h
  simp only [Decimal.unsigned?]
  rw [if_neg (not_or.mpr ⟨hword _ (by simp),hword _ (by simp)⟩),if_neg (hword _ (by simp)),htake,
    hdrop,fraction_parts hf he,if_neg (by simp [hw.ne_nil]),hn]
  exact ⟨_,rfl⟩

/-- Every number can be read. -/
theorem IsNumber.read {u : Text} (h : IsNumber u) : ∃ x, Decimal.real? u = some x := by
  have hn := h.numerals
  obtain ⟨hm,hw,hf,he⟩ := h
  rename_i m w f e
  obtain ⟨x,hx⟩ := unsigned?_parts hw hf he
  obtain ⟨negative,hs⟩ : ∃ negative, Decimal.sign (m ++ (w ++ (f ++ e))) =
      (negative,w ++ (f ++ e)) := by
    cases hm with
    | none =>
      cases w with
      | nil => exact absurd rfl hw.ne_nil
      | cons c w => exact ⟨false,sign_of_isDigit (hw.isDigit c (by simp))⟩
    | minus => exact ⟨true,rfl⟩
  simp [Decimal.real?,trim_numerals hn,plain?_numerals false hn,hs,hx]

/-! ## Dictionaries -/

/-- A dictionary of some members: a repeated key keeps its first place and takes its last value. -/
structure IsDict (es d : List (Text × Value)) : Prop where
  keys : d.map Prod.fst = (es.map Prod.fst).eraseDups
  values : ∀ key, d.lookup key = es.reverse.lookup key

section Dictionaries

variable {es d d' : List (Text × Value)}

theorem dictOf_concat (key : Text) (v : Value) :
    Value.dictOf (es ++ [(key,v)]) = Value.put key v (Value.dictOf es) := by
  simp [Value.dictOf]

theorem isDict_dictOf (es : List (Text × Value)) : IsDict es (Value.dictOf es) := by
  induction es using List.reverseRecOn with
  | nil => exact ⟨rfl,fun _ => rfl⟩
  | append_singleton es e ih =>
    obtain ⟨k,v⟩ := e
    rw [dictOf_concat]
    constructor
    · rw [Value.keys_put,ih.keys,List.map_append,List.eraseDups_append]
      by_cases h : k ∈ es.map Prod.fst
      · simp [List.removeAll,h]
      · simp [List.removeAll,h,List.eraseDups_cons]
    · intro key
      rw [Value.lookup_put,ih.values,List.reverse_append]
      by_cases h : key = k
      · simp [h]
      · simp [List.lookup_cons,beq_false_of_ne h,h]

theorem nodup_keys_dictOf (es : List (Text × Value)) :
    ((Value.dictOf es).map Prod.fst).Nodup := by
  induction es using List.reverseRecOn with
  | nil => exact List.nodup_nil
  | append_singleton es e ih =>
    rw [dictOf_concat,Value.keys_put]
    by_cases h : e.1 ∈ (Value.dictOf es).map Prod.fst
    · rwa [if_pos h]
    · rw [if_neg h]
      simpa using (List.nodup_concat _ _).mpr ⟨h,ih⟩

/-- Entries under different keys are told by their keys and by what stands under each. -/
theorem eq_of_lookup (hk : d.map Prod.fst = d'.map Prod.fst) (hn : (d.map Prod.fst).Nodup)
    (hl : ∀ key, d.lookup key = d'.lookup key) : d = d' := by
  induction d generalizing d' with
  | nil =>
    cases d' with
    | nil => rfl
    | cons e d' => cases hk
  | cons e d ih =>
    cases d' with
    | nil => cases hk
    | cons e' d' =>
      obtain ⟨k,v⟩ := e
      obtain ⟨k',v'⟩ := e'
      simp only [List.map_cons,List.cons.injEq] at hk
      obtain ⟨rfl,hk⟩ := hk
      obtain ⟨hm,hn⟩ := List.nodup_cons.mp hn
      obtain rfl : v = v' := by simpa using hl k
      refine congrArg _ (ih hk hn fun key => ?_)
      by_cases h : key = k
      · subst h
        have hnone (es : List (Text × Value)) (he : key ∉ es.map Prod.fst) :
            es.lookup key = none := by
          simp only [List.lookup_eq_none_iff,List.mem_map] at he ⊢
          intro x hx
          exact bne_iff_ne.mpr fun hk => he ⟨x,hx,hk.symm⟩
        rw [hnone d hm,hnone d' (hk ▸ hm)]
      · simpa [List.lookup_cons,beq_false_of_ne h] using hl key

theorem isDict_iff : IsDict es d ↔ d = Value.dictOf es := by
  constructor
  · intro h
    have hd := isDict_dictOf es
    have hk : (Value.dictOf es).map Prod.fst = d.map Prod.fst := hd.keys.trans h.keys.symm
    exact (eq_of_lookup hk (nodup_keys_dictOf es)
      fun key => (hd.values key).trans (h.values key).symm).symm
  · rintro rfl
    exact isDict_dictOf es

end Dictionaries

/-! ## Values -/

/-- What a text is read as: a value, bare or with blanks around it; a member of an object; or
such values or members with commas between them. -/
inductive Form
  | value (v : Value)
  | padded (v : Value)
  | member (key : Text) (v : Value)
  | items (vs : List Value)
  | members (es : List (Text × Value))

/-- The texts of a form, each with what it stands for. -/
inductive Derives : Text → Form → Prop
  | null : Derives "null".toList (.value .none)
  | true : Derives "true".toList (.value (.bool true))
  | false : Derives "false".toList (.value (.bool false))
  | number {u : Text} {x : Float} :
    IsNumber u → Decimal.real? u = some x → Derives u (.value (.float x))
  | string {u s : Text} : Characters u s → Derives ('"' :: (u ++ ['"'])) (.value (.str s))
  | emptyArray {b : Text} : Blank b → Derives ('[' :: (b ++ [']'])) (.value (.list []))
  | array {u : Text} {vs : List Value} :
    Derives u (.items vs) → Derives ('[' :: (u ++ [']'])) (.value (.list vs))
  | emptyObject {b : Text} :
    Blank b → Derives ('\x7b' :: (b ++ ['\x7d'])) (.value (.dict []))
  | object {u : Text} {es d : List (Text × Value)} : Derives u (.members es) → IsDict es d →
    Derives ('\x7b' :: (u ++ ['\x7d'])) (.value (.dict d))
  | padded {b u b' : Text} {v : Value} :
    Blank b → Derives u (.value v) → Blank b' → Derives (b ++ (u ++ b')) (.padded v)
  | member {b k s b' u : Text} {v : Value} :
    Blank b → Characters k s → Blank b' → Derives u (.padded v) →
      Derives (b ++ '"' :: (k ++ '"' :: (b' ++ ':' :: u))) (.member s v)
  | item {u : Text} {v : Value} : Derives u (.padded v) → Derives u (.items [v])
  | nextItem {u u' : Text} {vs : List Value} {v : Value} :
    Derives u (.items vs) → Derives u' (.padded v) → Derives (u ++ ',' :: u') (.items (vs ++ [v]))
  | firstMember {u key : Text} {v : Value} :
    Derives u (.member key v) → Derives u (.members [(key,v)])
  | nextMember {u u' key : Text} {es : List (Text × Value)} {v : Value} :
    Derives u (.members es) → Derives u' (.member key v) →
      Derives (u ++ ',' :: u') (.members (es ++ [(key,v)]))

end Peg.Samples.Json
