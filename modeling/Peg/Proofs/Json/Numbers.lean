import Peg.Proofs.Ends
import Peg.Proofs.Json.Language

/-! Numbers, as the grammar for JSON texts reads them.
Each part of a number ends where its derivation says, when what follows does not go on with it.
Main statements: a number is read before anything that is no part of one, and where none is read
none stands. -/
namespace Peg.Samples.Json

open Grammar

variable {G : Grammar} {t u rest : Text} {i : Int}

/-- A parser that makes no value reads this text. -/
def Passes (G : Grammar) (t : Text) (p : Parser) (i : Int) (u : Text) : Prop :=
  G.Ends t p i (.value (.success .none (i + u.length) false))

/-- An option reads nothing where its body fails. -/
theorem passes_nothing {p : Parser} {cut : Bool} (h : G.Fails t p i cut) :
    Passes G t (.opt p) i [] := by
  simpa [Passes] using Fails.opt h

theorem passes_digits {ds : Text} (h : At t i (ds ++ rest)) (hne : ds ≠ [])
    (hd : ∀ c ∈ ds, c.isDigit = true) (hr : ∀ c ∈ rest.head?, c.isDigit = false) :
    Passes G t digits i ds :=
  ends_runOf h (fun c hc => Decimal.mem_digits_iff.mpr (hd c hc))
    (fun c hc => by rw [Decimal.mem_digits_iff,hr c hc]; exact Bool.false_ne_true)
    (List.length_pos_iff.mpr hne)

theorem fails_digits (h : At t i u) (hu : ∀ c ∈ u.head?, c.isDigit = false) :
    G.Fails t digits i false :=
  fails_runOf (v := []) h (by simp)
    (fun c hc => by rw [Decimal.mem_digits_iff,hu c hc]; exact Bool.false_ne_true) (by simp)

/-! ## The parts -/

theorem passes_minus {m : Text} (h : At t i (m ++ rest)) (hm : Minus m)
    (hr : m = [] → ∀ c ∈ rest.head?, c ≠ '-') :
    Passes G t (.opt (char "json.minus" '-')) i m := by
  cases hm with
  | none => exact passes_nothing (fails_char h (hr rfl))
  | minus => exact .opt (ends_char h)

theorem passes_integral {w : Text} (h : At t i (w ++ rest)) (hw : Whole w)
    (hr : w = ['0'] ∨ ∀ c ∈ rest.head?, c.isDigit = false) : Passes G t integral i w := by
  cases hw with
  | zero => exact .choice (.here (ends_char h))
  | @digits d ds hd hs =>
    have hzero : d ≠ '0' := by
      rintro rfl
      exact absurd hd (by decide)
    have hr : ∀ c ∈ rest.head?, c.isDigit = false :=
      hr.resolve_left fun he => hzero (List.cons.inj he).1
    have hf : G.Fails t (char "json.zero" '0') i false := fails_char h (by simpa using hzero)
    have hfirst : G.Ends t (.terminal (.named "json.first digit") (.oneOf "123456789".toList)) i
        (.value (.success .none (i + 1) false)) :=
      ends_oneOf h hd
    have hmore : G.Ends t
        (.terminal (.named "json.more digits") (.runOf "0123456789".toList 0)) (i + 1)
        (.value (.success .none (i + 1 + ds.length) false)) :=
      ends_runOf h.next (fun c hc => Decimal.mem_digits_iff.mpr (hs c hc))
        (fun c hc => by rw [Decimal.mem_digits_iff,hr c hc]; exact Bool.false_ne_true)
        (Nat.zero_le _)
    have hi : i + (d :: ds).length = i + 1 + ds.length := by
      simp
      omega
    rw [Passes,hi]
    exact .choice (.there hf (.here (.seq (.skip hfirst (by simp) (.skip hmore (by simp) .nil)))))

theorem fails_integral (h : At t i u) (hu : ∀ c ∈ u.head?, c.isDigit = false) :
    G.Fails t integral i false := by
  have hzero : G.Fails t (char "json.zero" '0') i false := by
    refine fails_char h ?_
    rintro d hd rfl
    exact absurd (hu _ hd) (by decide)
  have hfirst : G.Fails t
      (.terminal (.named "json.first digit") (.oneOf "123456789".toList)) i false :=
    fails_oneOf h fun c hc hm => absurd (isDigit_of_mem_nonzero hm) (by simp [hu c hc])
  exact Fails.choice (.there hzero (.there (.seq (.here hfirst)) .nil))

theorem passes_fractional {ds : Text} (h : At t i ('.' :: (ds ++ rest))) (hne : ds ≠ [])
    (hd : ∀ c ∈ ds, c.isDigit = true) (hr : ∀ c ∈ rest.head?, c.isDigit = false) :
    Passes G t (.opt fractional) i ('.' :: ds) := by
  have hpoint : G.Ends t (char "json.point" '.') i _ := ends_char h
  have hdigits := passes_digits (G := G) h.next hne hd hr
  have hi : i + ('.' :: ds).length = i + 1 + ds.length := by
    simp
    omega
  rw [Passes,hi]
  exact .opt (.seq (.skip hpoint (isUnit_terminal _ _) (.skip hdigits (isUnit_terminal _ _) .nil)))

theorem passes_sign {s : Text} (h : At t i (s ++ rest)) (hs : s = [] ∨ s = ['+'] ∨ s = ['-'])
    (hr : s = [] → ∀ c ∈ rest.head?, c ∉ "+-".toList) :
    Passes G t (.opt (.terminal (.named "json.exponent sign") (.oneOf "+-".toList))) i s := by
  rcases hs with rfl | rfl | rfl
  · exact passes_nothing (fails_oneOf h (hr rfl))
  · exact .opt (ends_oneOf h (by decide))
  · exact .opt (ends_oneOf h (by decide))

theorem passes_exponent {e : Char} {s ds : Text} (h : At t i (e :: (s ++ (ds ++ rest))))
    (he : e ∈ "eE".toList) (hs : s = [] ∨ s = ['+'] ∨ s = ['-']) (hne : ds ≠ [])
    (hd : ∀ c ∈ ds, c.isDigit = true) (hr : ∀ c ∈ rest.head?, c.isDigit = false) :
    Passes G t (.opt exponent) i (e :: (s ++ ds)) := by
  have hmark : G.Ends t (.terminal (.named "json.exponent mark") (.oneOf "eE".toList)) i _ :=
    ends_oneOf h he
  have hsign := passes_sign (G := G) h.next hs fun _ => by
    cases ds with
    | nil => exact absurd rfl hne
    | cons c ds => simpa using Decimal.not_sign_of_isDigit (hd c (by simp))
  have hdigits := passes_digits (G := G) h.next.skip hne hd hr
  have hi : i + (e :: (s ++ ds)).length = i + 1 + s.length + ds.length := by
    simp
    omega
  rw [Passes,hi]
  exact .opt (.seq (.skip hmark (by simp) (.skip hsign (by simp)
    (.skip hdigits (isUnit_terminal _ _) .nil))))

/-! ## Numbers -/

/-- A number whose parts have been read is made of its text. -/
theorem ends_number {m w f e : Text} {x : Float} (h : At t i (m ++ (w ++ (f ++ (e ++ rest)))))
    (hm : Passes G t (.opt (char "json.minus" '-')) i m)
    (hw : Passes G t integral (i + m.length) w)
    (hf : Passes G t (.opt fractional) (i + m.length + w.length) f)
    (he : Passes G t (.opt exponent) (i + m.length + w.length + f.length) e)
    (hx : Decimal.real? (m ++ (w ++ (f ++ e))) = some x) :
    G.Ends t number i
      (.value (.success (.float x) (i + (m ++ (w ++ (f ++ e))).length) false)) := by
  have hi : i + m.length + w.length + f.length + e.length =
      i + (m ++ (w ++ (f ++ e))).length := by
    simp only [List.length_append]
    omega
  have hseq : G.Ends t (.seq (.named "json.number text")
      [.opt (char "json.minus" '-'),integral,.opt fractional,.opt exponent]) i
      (.value (.success .none (i + m.length + w.length + f.length + e.length) false)) := by
    refine .seq (.skip hm (by simp [char]) (.skip hw (by simp [integral,char]) ?_))
    exact .skip hf (by simp [fractional,char,digits]) (.skip he (by simp [exponent,digits]) .nil)
  rw [hi] at hseq
  have hat : At t i ((m ++ (w ++ (f ++ e))) ++ rest) := by simpa using h
  have hcode := Ends.capture hseq
  rw [hat.slice] at hcode
  exact .map hcode (by simp [Catalogue.toFloat,hx])

theorem fails_number {m : Text} (h : At t i (m ++ rest))
    (hm : Passes G t (.opt (char "json.minus" '-')) i m)
    (hr : ∀ c ∈ rest.head?, c.isDigit = false) : G.Fails t number i false :=
  .map (.capture (.seq (.skip hm (by simp [char]) (.here (fails_integral h.skip hr)))))

theorem fails_number_head (h : At t i u) (hu : ∀ c ∈ u.head?, c ≠ '-' ∧ c.isDigit = false) :
    G.Fails t number i false :=
  fails_number (m := []) h (passes_nothing (fails_char h fun c hc => (hu c hc).1))
    fun c hc => (hu c hc).2

theorem isDigit_of_not_numeral {c : Char} (h : c ∉ numerals) : c.isDigit = false :=
  Bool.eq_false_iff.mpr fun hd => h (mem_numerals_of_isDigit hd)

theorem head_whole {w : Text} (h : Whole w) : ∀ c ∈ (w ++ rest).head?, c.isDigit = true := by
  cases h with
  | zero => simp
  | digits hd _ => simpa using isDigit_of_mem_nonzero hd

theorem passes_fraction {f : Text} (h : At t i (f ++ rest)) (hf : Fraction f)
    (hr : ∀ c ∈ rest.head?, c.isDigit = false ∧ c ≠ '.') : Passes G t (.opt fractional) i f := by
  cases hf with
  | none => exact passes_nothing (.seq (.here (fails_char h fun c hc => (hr c hc).2)))
  | digits hne hd => exact passes_fractional h hne hd fun c hc => (hr c hc).1

theorem passes_power {e : Text} (h : At t i (e ++ rest)) (he : Exponent e)
    (hr : ∀ c ∈ rest.head?, c ∉ numerals) : Passes G t (.opt exponent) i e := by
  cases he with
  | none =>
    have hmark : ∀ c ∈ "eE".toList, c ∈ numerals := forall_mem_of_all (by decide)
    exact passes_nothing (.seq (.here (fails_oneOf h fun c hc hm => hr c hc (hmark c hm))))
  | digits he hs hne hd =>
    exact passes_exponent (by simpa using h) he hs hne hd fun c hc =>
      isDigit_of_not_numeral (hr c hc)

/-- A number is read before anything that no number goes on with. -/
theorem reads_number {u : Text} {x : Float} (h : At t i (u ++ rest)) (hu : IsNumber u)
    (hx : Decimal.real? u = some x) (hr : ∀ c ∈ rest.head?, c ∉ numerals) :
    G.Ends t number i (.value (.success (.float x) (i + u.length) false)) := by
  obtain ⟨hm,hw,hf,he⟩ := hu
  rename_i m w f e
  have hat : At t i (m ++ (w ++ (f ++ (e ++ rest)))) := by simpa using h
  have hpower : ∀ c ∈ (e ++ rest).head?, c.isDigit = false ∧ c ≠ '.' := by
    cases he with
    | none =>
      refine fun c hc => ⟨isDigit_of_not_numeral (hr c hc),?_⟩
      rintro rfl
      exact hr _ hc (by decide)
    | digits he => simpa using not_isDigit_of_mark he
  have hfraction : ∀ c ∈ (f ++ (e ++ rest)).head?, c.isDigit = false := by
    cases hf with
    | none => exact fun c hc => (hpower c hc).1
    | digits => simp
  have hminus : ∀ c ∈ (w ++ (f ++ (e ++ rest))).head?, c ≠ '-' := by
    rintro c hc rfl
    exact absurd (head_whole hw _ hc) (by decide)
  exact ends_number hat (passes_minus hat hm fun _ => hminus)
    (passes_integral hat.skip hw (Or.inr hfraction)) (passes_fraction hat.skip.skip hf hpower)
    (passes_power hat.skip.skip.skip he hr) hx

theorem answers_minus (h : At t i u) : ∃ m rest, u = m ++ rest ∧ Minus m ∧
    Passes G t (.opt (char "json.minus" '-')) i m := by
  rcases head_ne_or_cons '-' u with hu | ⟨u,rfl⟩
  · exact ⟨[],u,rfl,.none,passes_nothing (fails_char h hu)⟩
  · exact ⟨['-'],u,rfl,.minus,.opt (ends_char h)⟩

theorem answers_integral (h : At t i u) : (∀ c ∈ u.head?, c.isDigit = false) ∨
    ∃ w rest, u = w ++ rest ∧ Whole w ∧ Passes G t integral i w := by
  rcases head_not_or_cons (Char.isDigit · = true) u with hu | ⟨d,u,rfl,hd⟩
  · exact Or.inl fun c hc => Bool.eq_false_iff.mpr (hu c hc)
  · by_cases hzero : d = '0'
    · subst hzero
      exact Or.inr ⟨['0'],u,rfl,.zero,passes_integral h .zero (Or.inl rfl)⟩
    · obtain ⟨ds,rest,rfl,hs,hr⟩ := exists_run Char.isDigit u
      have hn : d ∈ "123456789".toList :=
        Decimal.of_isDigit (P := fun d => d ≠ '0' → d ∈ "123456789".toList) (by decide) hd hzero
      have hw : Whole (d :: ds) := .digits hn hs
      exact Or.inr ⟨d :: ds,rest,rfl,hw,passes_integral h hw (Or.inr hr)⟩

theorem answers_fraction (h : At t i u) : ∃ f rest, u = f ++ rest ∧ Fraction f ∧
    Passes G t (.opt fractional) i f := by
  rcases head_ne_or_cons '.' u with hu | ⟨u,rfl⟩
  · exact ⟨[],u,rfl,.none,passes_nothing (.seq (.here (fails_char h hu)))⟩
  · obtain ⟨ds,rest,rfl,hd,hr⟩ := exists_run Char.isDigit u
    by_cases hne : ds = []
    · subst hne
      have hf : G.Fails t fractional i false :=
        .seq (.skip (ends_char h) (isUnit_terminal _ _) (.here (fails_digits h.next hr)))
      exact ⟨[],_,rfl,.none,passes_nothing hf⟩
    · exact ⟨'.' :: ds,rest,rfl,.digits hne hd,passes_fractional h hne hd hr⟩

theorem answers_sign (h : At t i u) : ∃ s rest, u = s ++ rest ∧ (s = [] ∨ s = ['+'] ∨ s = ['-']) ∧
    Passes G t (.opt (.terminal (.named "json.exponent sign") (.oneOf "+-".toList))) i s := by
  rcases head_not_or_cons (· ∈ "+-".toList) u with hu | ⟨c,u,rfl,hc⟩
  · exact ⟨[],u,rfl,Or.inl rfl,passes_sign (s := []) h (Or.inl rfl) fun _ => hu⟩
  · have hs : [c] = [] ∨ [c] = ['+'] ∨ [c] = ['-'] := by simpa using hc
    exact ⟨[c],u,rfl,hs,passes_sign (s := [c]) h hs (by simp)⟩

theorem answers_exponent (h : At t i u) : ∃ e rest, u = e ++ rest ∧ Exponent e ∧
    Passes G t (.opt exponent) i e := by
  rcases head_not_or_cons (· ∈ "eE".toList) u with hu | ⟨c,u,rfl,hc⟩
  · exact ⟨[],u,rfl,.none,passes_nothing (.seq (.here (fails_oneOf h hu)))⟩
  · obtain ⟨s,r,rfl,hs,hsign⟩ := answers_sign (G := G) h.next
    obtain ⟨ds,rest,rfl,hd,hr⟩ := exists_run Char.isDigit r
    by_cases hne : ds = []
    · subst hne
      have hf : G.Fails t exponent i false :=
        .seq (.skip (ends_oneOf h hc) (by simp) (.skip hsign (by simp)
          (.here (fails_digits h.next.skip hr))))
      exact ⟨[],_,rfl,.none,passes_nothing hf⟩
    · exact ⟨c :: (s ++ ds),rest,by simp,.digits hc hs hne hd,passes_exponent h hc hs hne hd hr⟩

/-- Where no number is read, none is derived from what is read. -/
theorem answers_number (h : At t i u) : G.Fails t number i false ∨
    ∃ w rest x, u = w ++ rest ∧ IsNumber w ∧ Decimal.real? w = some x ∧
      G.Ends t number i (.value (.success (.float x) (i + w.length) false)) := by
  obtain ⟨m,u,rfl,hm,hminus⟩ := answers_minus (G := G) h
  rcases answers_integral (G := G) h.skip with hu | ⟨w,u,rfl,hw,hwhole⟩
  · exact Or.inl (fails_number h hminus hu)
  · obtain ⟨f,u,rfl,hf,hfraction⟩ := answers_fraction (G := G) h.skip.skip
    obtain ⟨e,rest,rfl,he,hexponent⟩ := answers_exponent (G := G) h.skip.skip.skip
    have hn : IsNumber (m ++ (w ++ (f ++ e))) := .parts hm hw hf he
    obtain ⟨x,hx⟩ := hn.read
    exact Or.inr ⟨_,rest,x,by simp,hn,hx,ends_number h hminus hwhole hfraction hexponent hx⟩

end Peg.Samples.Json
