import Peg.Proofs.Ends
import Peg.Proofs.Json.Language

/-! Strings, as the grammar for JSON texts reads them.
What stands between quotes is read piece by piece, as far as there are characters, so that it ends
where a derivation says.  Main statements: how a sequence that begins with a string ends, and that
it fails where no string stands. -/
namespace Peg.Samples.Json

open Grammar

variable {G : Grammar} {t u v rest : Text} {i : Int}

/-! ## Blanks -/

theorem exists_blank (u : Text) : ∃ b rest, u = b ++ rest ∧ Blank b ∧ ∀ c ∈ rest.head?, c ∉ blanks := by
  obtain ⟨b,rest,hu,hb,hr⟩ := exists_run (blanks.contains ·) u
  exact ⟨b,rest,hu,fun c hc => by simpa using hb c hc,fun c hc => by simpa using hr c hc⟩

theorem ends_space {b : Text} (h : At t i (b ++ u)) (hb : Blank b)
    (hu : ∀ c ∈ u.head?, c ∉ blanks) :
    G.Ends t space i (.value (.success .none (i + b.length) false)) :=
  ends_runOf h hb hu (Nat.zero_le _)

/-! ## Pieces -/

/-- Some characters that stand for themselves, or an escape. -/
def piece : Parser := .choice [plainChars,unicodeEscape,simpleEscape]

def plainSet : CharSet := ⟨[.range '"' '"',.range '\\' '\\'],true,false⟩

theorem plainSet_holds {c : Char} : plainSet.holds c = true ↔ c ≠ '"' ∧ c ≠ '\\' := by
  have hrange (d : Char) : (decide (d ≤ c) && decide (c ≤ d)) = decide (c = d) := by
    rw [Bool.eq_iff_iff,Bool.and_eq_true,decide_eq_true_eq,decide_eq_true_eq,decide_eq_true_eq]
    exact ⟨fun h => Char.le_antisymm h.2 h.1,by rintro rfl; exact ⟨Char.le_refl _,Char.le_refl _⟩⟩
  simp [plainSet,CharSet.holds,Member.holds,hrange]

theorem ends_plainChars (h : At t i (v ++ u)) (hv : ∀ c ∈ v, c ≠ '"' ∧ c ≠ '\\')
    (hu : ∀ c ∈ u.head?, ¬ (c ≠ '"' ∧ c ≠ '\\')) (hne : v ≠ []) :
    G.Ends t plainChars i (.value (.success (.str v) (i + v.length) false)) := by
  have hr : G.Ends t (.terminal (.named "json.plain") (.regex plainPattern.matcher "[^\"\\\\]+".toList)) i
      (.value (.success .none (i + v.length) false)) :=
    ends_regex_run (s := plainSet) h (fun c hc => plainSet_holds.mpr (hv c hc))
      (fun c hc => Bool.eq_false_iff.mpr fun hp => hu c hc (plainSet_holds.mp hp))
      (List.length_pos_iff.mpr hne)
  have hc := Ends.capture hr
  rwa [h.slice] at hc

theorem fails_plainChars (h : At t i u) (hu : ∀ c ∈ u.head?, ¬ (c ≠ '"' ∧ c ≠ '\\')) :
    G.Fails t plainChars i false :=
  Fails.capture (fails_regex_run (s := plainSet) (v := []) h (by simp)
    (fun c hc => Bool.eq_false_iff.mpr fun hp => hu c hc (plainSet_holds.mp hp)) (by simp))

/-- Four digits are read at most; fewer when something else comes before. -/
theorem rounds_hexDigits {ds : Text} {tally : Tally} (h : At t tally.stop (ds ++ rest))
    (hd : ∀ c ∈ ds, c ∈ hexDigits) (hc : tally.cut = false) (hl : tally.count + ds.length ≤ 4)
    (hr : tally.count + ds.length = 4 ∨ ∀ c ∈ rest.head?, c ∉ hexDigits) :
    ∃ values, G.EndsRounds t hexDigit pass 4 (some 4) tally
      (.value ⟨values,tally.count + ds.length,false,tally.stop + ds.length⟩) := by
  induction ds generalizing tally with
  | nil =>
    obtain ⟨values,count,cut,stop⟩ := tally
    obtain rfl : cut = false := hc
    refine ⟨values,?_⟩
    simp only [List.length_nil,Nat.add_zero,Int.natCast_zero,Int.add_zero] at hl hr ⊢
    by_cases hcount : count = 4
    · exact .full (by simp [hcount])
    · have hf : G.Fails t hexDigit stop false := fails_oneOf h (hr.resolve_left hcount)
      exact .noElement (by simp; omega) .pass hf
  | cons d ds ih =>
    have hstop : tally.stop + 1 ≤ t.length := by
      have := h.add_length
      simp only [List.cons_append,List.length_cons] at this
      omega
    simp only [List.length_cons] at hl hr ⊢
    obtain ⟨values,hm⟩ := @ih ⟨.none :: tally.values,tally.count + 1,false,tally.stop + 1⟩
      h.next (fun c hc => hd c (by simp [hc])) rfl (by dsimp only; omega)
      (hr.imp_left fun hr => by dsimp only; omega)
    have he : G.Ends t hexDigit tally.stop (.value (.success .none (tally.stop + 1) false)) :=
      ends_oneOf h (hd d (by simp))
    refine ⟨values,.more (by simp; omega) .pass he (by omega) hstop ?_⟩
    simp only [hc,Bool.or_false]
    convert hm using 2
    dsimp only
    congr 1
    · omega
    · omega

theorem rounds_code {ds : Text} (h : At t i (ds ++ rest)) (hd : ∀ c ∈ ds, c ∈ hexDigits)
    (hl : ds.length ≤ 4) (hr : ds.length = 4 ∨ ∀ c ∈ rest.head?, c ∉ hexDigits) :
    ∃ values, G.EndsRounds t hexDigit pass (Quantity.toNat 4) ((some 4).map Quantity.toNat)
      ⟨[],0,false,i⟩ (.value ⟨values,ds.length,false,i + ds.length⟩) := by
  have hm := @rounds_hexDigits G t rest ds ⟨[],0,false,i⟩ h hd rfl (by simpa using hl)
    (by simpa using hr)
  have hfour : Quantity.toNat 4 = 4 := rfl
  simpa [hfour] using hm

theorem ends_unicodeMark (h : At t i ("\\u".toList ++ u)) :
    G.Ends t (.terminal (.named "json.unicode mark") (.literal "\\u".toList)) i
      (.value (.success .none (i + 2) false)) :=
  ends_literal h

theorem ends_unicodeEscape {ds : Text} (h : At t i ('\\' :: 'u' :: (ds ++ rest)))
    (hl : ds.length = 4) (hd : ∀ c ∈ ds, c ∈ hexDigits) :
    G.Ends t unicodeEscape i
      (.value (.success (.str [Char.ofNat (hexNumber ds)]) (i + 2 + 4) false)) := by
  have hmark := ends_unicodeMark (G := G) (u := ds ++ rest) h
  have hat : At t (i + 2) (ds ++ rest) := At.skip (v := "\\u".toList) h
  obtain ⟨values,hm⟩ := rounds_code (G := G) hat hd (Nat.le_of_eq hl) (Or.inl hl)
  have hrep : G.Ends t (.rep (.named "json.hex digits") hexDigit 4 (some 4) pass) (i + 2)
      (.value (.success (.list values.reverse) (i + 2 + ds.length) false)) :=
    .rep hm (Nat.le_of_eq hl.symm)
  have hslice : t.slice (i + 2) (i + 2 + ds.length) = ds := hat.slice
  have hcode := Ends.capture hrep
  rw [hslice,hl] at hcode
  have hdecode : decodeHex (.str ds) = .ok (.str [Char.ofNat (hexNumber ds)]) := by
    simp only [decodeHex,hexValue?_digits hd]
  exact .seq (.skip hmark (by simp) (.keep (.map hcode hdecode) (by simp) .nil))

/-- Without four digits after the mark there is no character by its number. -/
theorem fails_unicodeEscape (h : At t i u) (hu : ∀ ds rest, ds.length = 4 →
    (∀ c ∈ ds, c ∈ hexDigits) → u ≠ '\\' :: 'u' :: (ds ++ rest)) :
    G.Fails t unicodeEscape i false := by
  by_cases hmark : "\\u".toList <+: u
  · obtain ⟨u,rfl⟩ := hmark
    obtain ⟨v,rest,rfl,hv,hr⟩ := exists_run (hexDigits.contains ·) u
    have hv : ∀ c ∈ v, c ∈ hexDigits := fun c hc => by simpa using hv c hc
    have hr : ∀ c ∈ rest.head?, c ∉ hexDigits := fun c hc => by simpa using hr c hc
    have hl : v.length < 4 := by
      by_contra hge
      refine hu (v.take 4) (v.drop 4 ++ rest) (by simp; omega)
        (fun c hc => hv c (List.mem_of_mem_take hc)) ?_
      rw [← List.append_assoc (v.take 4),List.take_append_drop]
      rfl
    have hend := ends_unicodeMark (G := G) h
    obtain ⟨values,hm⟩ := rounds_code (G := G) (At.skip (v := "\\u".toList) h) hv
      (Nat.le_of_lt hl) (Or.inr hr)
    have hrep : G.Fails t (.rep (.named "json.hex digits") hexDigit 4 (some 4) pass) (i + 2)
        false := Fails.rep hm hl
    exact .seq (.skip hend (by simp) (.here (.map (.capture hrep))))
  · exact .seq (.here (fails_literal h hmark))

theorem ends_simpleEscape {e c : Char} (h : At t i ('\\' :: e :: rest)) (he : Escape e c) :
    G.Ends t simpleEscape i (.value (.success (.str [c]) (i + 1 + 1) false)) := by
  have hletter : G.Ends t (.terminal (.named "json.escape letter")
      (.oneOf (escapes.map Prod.fst))) (i + 1) (.value (.success .none (i + 1 + 1) false)) :=
    ends_oneOf h.next (mem_escapes_iff.mpr ⟨c,he⟩)
  have hslice : t.slice (i + 1) (i + 1 + 1) = [e] := At.slice (v := [e]) h.next
  have hcode := Ends.capture hletter
  rw [hslice] at hcode
  have hdecode : decodeEscape (.str [e]) = .ok (.str [c]) := by
    simp only [decodeEscape,escape_iff.mp he]
  exact .seq (.skip (ends_char h) (isUnit_terminal _ _) (.keep (.map hcode hdecode) (by simp) .nil))

theorem fails_simpleEscape (h : At t i u)
    (hu : ∀ e c rest, Escape e c → u ≠ '\\' :: e :: rest) : G.Fails t simpleEscape i false := by
  rcases head_ne_or_cons '\\' u with hb | ⟨u,rfl⟩
  · exact .seq (.here (fails_char h hb))
  · have hf : G.Fails t (.terminal (.named "json.escape letter")
        (.oneOf (escapes.map Prod.fst))) (i + 1) false := by
      refine fails_oneOf h.next fun e he hm => ?_
      obtain ⟨c,hc⟩ := mem_escapes_iff.mp hm
      cases u with
      | nil => cases he
      | cons d u =>
        cases he
        exact hu _ c u hc rfl
    exact .seq (.skip (ends_char h) (isUnit_terminal _ _) (.here (.map (.capture hf))))

/-- No piece is read where no character begins, and else at least one character is. -/
theorem answers_piece (h : At t i u) : Stuck u ∧ G.Fails t piece i false ∨
    ∃ w rest s, u = w ++ rest ∧ w ≠ [] ∧ Characters w s ∧
      G.Ends t piece i (.value (.success (.str s) (i + w.length) false)) := by
  obtain ⟨v,r,rfl,hv,hr⟩ := exists_run (fun c => c ≠ '"' ∧ c ≠ '\\') u
  have hv : ∀ c ∈ v, c ≠ '"' ∧ c ≠ '\\' := fun c hc => by simpa using hv c hc
  have hr : ∀ c ∈ r.head?, ¬ (c ≠ '"' ∧ c ≠ '\\') := fun c hc => by simpa using hr c hc
  by_cases hne : v = []
  · subst hne
    have hplain : G.Fails t plainChars i false := fails_plainChars h hr
    by_cases hu : ∃ ds rest, ds.length = 4 ∧ (∀ c ∈ ds, c ∈ hexDigits) ∧
        r = '\\' :: 'u' :: (ds ++ rest)
    · obtain ⟨ds,rest,hl,hd,rfl⟩ := hu
      refine Or.inr ⟨'\\' :: 'u' :: ds,rest,_,rfl,by simp,(Character.unicode hl hd).characters,?_⟩
      have hi : i + 2 + 4 = i + ('\\' :: 'u' :: ds).length := by
        simp [hl]
        omega
      rw [← hi]
      exact .choice (.there hplain (.here (ends_unicodeEscape h hl hd)))
    · have hunicode : G.Fails t unicodeEscape i false :=
        fails_unicodeEscape h fun ds rest hl hd he => hu ⟨ds,rest,hl,hd,he⟩
      by_cases hs : ∃ e c rest, Escape e c ∧ r = '\\' :: e :: rest
      · obtain ⟨e,c,rest,hc,rfl⟩ := hs
        have hi : i + 1 + 1 = i + ['\\',e].length := by
          simp
          omega
        refine Or.inr ⟨['\\',e],rest,_,rfl,by simp,(Character.escape hc).characters,?_⟩
        rw [← hi]
        exact .choice (.there hplain (.there hunicode (.here (ends_simpleEscape h hc))))
      · have hsimple : G.Fails t simpleEscape i false :=
          fails_simpleEscape h fun e c rest hc he => hs ⟨e,c,rest,hc,he⟩
        refine Or.inl ⟨fun w c rest hw he => ?_,Fails.choice (.there hplain (.there hunicode
          (.there hsimple .nil)))⟩
        cases hw with
        | plain hq hb => exact hr c (congrArg List.head? he) ⟨hq,hb⟩
        | escape hc => exact hs ⟨_,c,rest,hc,by simpa using he⟩
        | unicode hl hd => exact hu ⟨_,rest,hl,hd,by simpa using he⟩
  · exact Or.inr ⟨v,r,v,rfl,hne,characters_plain hv,.choice (.here (ends_plainChars h hv hr hne))⟩

/-! ## Whole strings -/

theorem join_concat {vs : List Value} {s s' : Text} (h : Catalogue.join vs = .ok s) :
    Catalogue.join (vs ++ [.str s']) = .ok (s ++ s') := by
  induction vs generalizing s with
  | nil =>
    cases h
    simp [Catalogue.join,Except.map]
  | cons v vs ih =>
    cases v with
    | str w =>
      simp only [Catalogue.join,List.cons_append] at h ⊢
      cases hj : Catalogue.join vs with
      | error fault => simp [hj,Except.map] at h
      | ok r =>
        rw [hj] at h
        cases h
        rw [ih hj]
        simp [Except.map]
    | _ => cases h

/-- Pieces are read up to where no character begins. -/
theorem answers_pieces {tally : Tally} {s₀ : Text} (h : At t tally.stop u)
    (hcut : tally.cut = false) (hs : Catalogue.join tally.values.reverse = .ok s₀) :
    ∃ w rest s last, u = w ++ rest ∧ Stuck rest ∧ Characters w s ∧
      Catalogue.join last.values.reverse = .ok (s₀ ++ s) ∧ last.cut = false ∧
      last.stop = tally.stop + w.length ∧
      G.EndsRounds t piece pass 0 none tally (.value last) := by
  induction hn : u.length using Nat.strongRecOn generalizing u tally s₀ with
  | ind n ih =>
    rcases answers_piece (G := G) h with ⟨hstuck,hf⟩ | ⟨w,rest,s,rfl,hne,hw,he⟩
    · have hend : G.EndsRounds t piece pass 0 none tally
          (.value { tally with cut := tally.cut || false || false }) := .noElement rfl .pass hf
      refine ⟨[],u,[],_,rfl,hstuck,.nil,?_,?_,?_,hend⟩
      · simpa using hs
      · simp [hcut]
      · simp
    · have hlen := h.add_length
      rw [List.length_append] at hlen hn
      have hpos := List.length_pos_iff.mpr hne
      obtain ⟨w',rest',s',last,rfl,hstuck,hw',hj,hc,hstop,hr⟩ :=
        @ih rest.length (by omega) rest ⟨.str s :: tally.values,tally.count + 1,false,
          tally.stop + w.length⟩ (s₀ ++ s) h.skip rfl (by simpa using join_concat hs) rfl
      refine ⟨w ++ w',rest',s ++ s',last,by simp,hstuck,hw.append hw',by simpa using hj,hc,?_,?_⟩
      · rw [hstop,List.length_append,Int.natCast_add,Int.add_assoc]
      · exact .more rfl .pass he (by omega) (by omega) (by simpa [hcut] using hr)

theorem answers_stringParts (h : At t i u) :
    ∃ w rest s, u = w ++ rest ∧ Stuck rest ∧ Characters w s ∧
      G.Ends t stringParts i (.value (.success (.str s) (i + w.length) false)) := by
  obtain ⟨w,rest,s,last,hu,hstuck,hw,hj,hcut,hstop,hr⟩ :=
    @answers_pieces G t u ⟨[],0,false,i⟩ [] h rfl rfl
  have hjoin : joinTexts (.list last.values.reverse) = .ok (.str s) := by
    simp only [joinTexts,Catalogue.spread,Value.items?,hj]
    rfl
  have hpieces : G.Ends t (.rep (.named "json.string pieces") piece 0 none pass) i
      (.value (.success (.list last.values.reverse) last.stop last.cut)) :=
    .rep hr (Nat.zero_le _)
  rw [hcut,hstop] at hpieces
  exact ⟨w,rest,s,hu,hstuck,hw,.map hpieces hjoin⟩

/-- What a derivation reads between the quotes is what is read. -/
theorem ends_stringParts {k s : Text} (h : At t i (k ++ '"' :: rest)) (hk : Characters k s) :
    G.Ends t stringParts i (.value (.success (.str s) (i + k.length) false)) := by
  obtain ⟨w,rest',s',hu,hstuck,hw,he⟩ := answers_stringParts (G := G) h
  obtain ⟨rfl,rfl⟩ := hk.unique hw hu (stuck_quote rest) hstuck
  exact he

/-- How a string begins and ends: blanks, and what stands between two quotes. -/
def quoted : List Parser :=
  [space,char "json.opening quote" '"',stringParts,char "json.closing quote" '"']

/-- A sequence that begins with a string goes on after it. -/
theorem ends_quoted {b k s : Text} {parts : List Parser} {a : Answer Outcome}
    (h : At t i (b ++ '"' :: (k ++ '"' :: rest))) (hb : Blank b) (hk : Characters k s)
    (hp : G.EndsSeq t parts [.str s] false (i + b.length + 1 + k.length + 1) a) :
    G.EndsSeq t (quoted ++ parts) [] false i a := by
  have hspace : G.Ends t space i _ := ends_space h hb (by simp [blanks])
  have hopen : G.Ends t (char "json.opening quote" '"') (i + b.length) _ := ends_char h.skip
  have hparts := ends_stringParts (G := G) h.skip.next hk
  have hclose : G.Ends t (char "json.closing quote" '"') (i + b.length + 1 + k.length) _ :=
    ends_char h.skip.next.skip
  refine .skip hspace (isUnit_terminal _ _) (.skip hopen (isUnit_terminal _ _) ?_)
  exact .keep hparts (isUnit_map _ _ _ _) (.skip hclose (isUnit_terminal _ _) hp)

/-- Where no string stands, a sequence that begins with one fails. -/
theorem answers_quoted (h : At t i u) :
    (∀ parts, G.FailsSeq t (quoted ++ parts) [] false i false) ∨
      ∃ b k s rest, u = b ++ '"' :: (k ++ '"' :: rest) ∧ Blank b ∧ Characters k s := by
  obtain ⟨b,r,rfl,hb,hr⟩ := exists_blank u
  have hspace : G.Ends t space i _ := ends_space h hb hr
  rcases head_ne_or_cons '"' r with ho | ⟨r,rfl⟩
  · exact Or.inl fun parts => .skip hspace (isUnit_terminal _ _) (.here (fails_char h.skip ho))
  · have hopen : G.Ends t (char "json.opening quote" '"') (i + b.length) _ := ends_char h.skip
    obtain ⟨k,r,s,rfl,-,hk,hparts⟩ := answers_stringParts (G := G) h.skip.next
    rcases head_ne_or_cons '"' r with hc | ⟨r,rfl⟩
    · refine Or.inl fun parts => .skip hspace (isUnit_terminal _ _) ?_
      refine .skip hopen (isUnit_terminal _ _) (.keep hparts (isUnit_map _ _ _ _) ?_)
      exact .here (fails_char h.skip.next.skip hc)
    · exact Or.inr ⟨b,k,s,r,rfl,hb,hk⟩

end Peg.Samples.Json
