import Peg.Proofs.Commitments
import Peg.Proofs.Json.Parsing

/-! The cuts of the grammar for JSON texts change nothing.
After an opening bracket no other kind of value begins there.  Main statement: with and without its
cuts the grammar accepts the same texts with the same values, and fails at the same positions. -/
namespace Peg.Samples.Json

open Grammar

/-! ## Where a character comes next -/

/-- At a position of a text, which may count from the end, this character comes next. -/
def Facing (t : Text) (i : Int) (c : Char) : Prop := ∃ u, t.ahead i = some (c :: u)

theorem facing_of_scan {t : Text} {i k : Int} {c : Char}
    (h : (Terminal.char c).scan t i = .ok (some k)) : Facing t i c := by
  simp only [Terminal.scan,Terminal.scanOne] at h
  rcases ha : t.ahead i with _ | (_ | ⟨d,u⟩)
  · simp [ha] at h
  · simp [ha] at h
  · cases hd : d == c with
    | true => exact ⟨u,beq_iff_eq.mp hd ▸ ha⟩
    | false => simp [ha,hd] at h

namespace Facing

variable {G : Grammar} {t : Text} {i : Int} {c d : Char} {id : Ident}

theorem startsAt (h : Facing t i c) (hd : c ≠ d) (word : Text) : t.startsAt (d :: word) i = false := by
  refine Bool.eq_false_iff.mpr fun hs => ?_
  obtain ⟨u,hu⟩ := h
  obtain ⟨r,hr⟩ := ((Text.startsAt_iff _ _ _).mp hs).1
  unfold Text.ahead at hu
  by_cases h0 : 0 ≤ i
  · rw [if_pos h0,← Text.bound_of_nonneg t h0,← hr] at hu
    exact hd (List.cons.inj (Option.some.inj hu)).1.symm
  · rw [if_neg h0] at hu
    split at hu
    · rw [Text.bound,if_pos (by omega)] at hr
      rw [← hr] at hu
      exact hd (List.cons.inj (Option.some.inj hu)).1.symm
    · cases hu

theorem fails_char (h : Facing t i c) (hd : c ≠ d) : G.Fails t (.terminal id (.char d)) i false := by
  obtain ⟨u,h⟩ := h
  exact fails_terminal (by simp [Terminal.scan,Terminal.scanOne,h,beq_false_of_ne hd])

theorem fails_oneOf {chars : Text} (h : Facing t i c) (hc : c ∉ chars) :
    G.Fails t (.terminal id (.oneOf chars)) i false := by
  obtain ⟨u,h⟩ := h
  exact fails_terminal (by simp [Terminal.scan,Terminal.scanOne,h,hc])

theorem ends_runOf {chars : Text} (h : Facing t i c) (hc : c ∉ chars) :
    G.Ends t (.terminal id (.runOf chars 0)) i (.value (.success .none i false)) := by
  obtain ⟨u,h⟩ := h
  exact ends_terminal (by simp [Terminal.scan,Terminal.scanRun,h,hc])

theorem fails_literal (h : Facing t i c) (hd : c ≠ d) (word : Text) :
    G.Fails t (.terminal id (.literal (d :: word))) i false :=
  fails_terminal (by simp [Terminal.scan,h.startsAt hd word])

theorem fails_number (h : Facing t i c) (hc : c ∉ Kind.first .number) :
    G.Fails t number i false := by
  have hne {d : Char} (hd : d ∈ Kind.first .number) : c ≠ d := fun hcd => hc (hcd ▸ hd)
  have hdigit : c ∉ "123456789".toList := fun hd => hc (List.mem_of_mem_drop (i := 2) hd)
  have hwhole : G.Fails t (.seq (.named "json.whole")
      [.terminal (.named "json.first digit") (.oneOf "123456789".toList),
        .terminal (.named "json.more digits") (.runOf "0123456789".toList 0)]) i false :=
    .seq (.here (h.fails_oneOf hdigit))
  have hintegral : G.Fails t integral i false :=
    Fails.choice (.there (h.fails_char (hne (by decide))) (.there hwhole .nil))
  have hminus : G.Ends t (.opt (char "json.minus" '-')) i (.value (.success .none i false)) :=
    (h.fails_char (hne (by decide))).opt
  exact .map (.capture (.seq (.skip hminus (by simp [char]) (.here hintegral))))

/-- A kind of value fails without its cuts where it does not begin. -/
theorem fails_kind {k : Kind} (h : Facing t i c) (hb : c ∉ blanks) (hk : c ∉ k.first) :
    G.Fails t k.parser.uncut i false := by
  have hne {d : Char} (hd : d ∈ k.first) : c ≠ d := fun hcd => hk (hcd ▸ hd)
  cases k with
  | object | array => exact .map (.seq (.here (h.fails_char (hne (by decide)))))
  | string =>
    exact .seq (.skip (h.ends_runOf hb) (isUnit_terminal _ _)
      (.here (h.fails_char (hne (by decide)))))
  | true | false | null => exact .map (h.fails_literal (hne (by decide)) _)
  | number => exact h.fails_number hk

end Facing

/-- A group fails with a cut only where its opening bracket comes next. -/
theorem facing_of_cut {t : Text} {g : Group} {n : Nat} {i j : Int} {cause : Parser}
    (h : grammar.eval t n g.parser i = .value (.failure j cause true)) : Facing t i g.opening := by
  have hends := Ends.of_eval h
  rcases hs : (Terminal.char g.opening).scan t i with fault | _ | k
  · have hg : grammar.Ends t g.parser i (.raised fault) := by
      cases g with
      | array => exact .map_raised (.seq (.raise (ends_terminal_raised hs).cut_raised))
      | object => exact .map_raised (.seq (.raise (ends_terminal_raised hs).cut_raised))
    cases hends.unique hg
  · have hopening : grammar.Fails t g.openingParser i false := by
      cases g <;> exact .cut (fails_terminal hs)
    obtain ⟨k,cause',hg⟩ := Group.fails hopening
    cases hends.unique hg
  · exact facing_of_scan hs

/-! ## The cuts -/

/-- Where cuts can be reached in the grammar. -/
inductive Committed : Parser → Prop
  | document : Committed document
  | value : Committed value
  | body : Committed valueBody
  | core : Committed core
  | group (g : Group) : Committed g.parser
  | opening (g : Group) : Committed g.openingParser
  | elements (g : Group) : Committed g.elements
  | pair : Committed pair
  | array : Committed (.seq (.named "json.array body") (Group.parts .array))
  | object : Committed (.seq (.named "json.object body") (Group.parts .object))

/-- What runs when a document is parsed. -/
def Runs (p : Parser) : Prop := p.cutless = true ∨ Committed p

theorem runs_kind (k : Kind) : Runs k.parser := by
  cases k with
  | object => exact .inr (.group .object)
  | array => exact .inr (.group .array)
  | string | true | false | null | number => exact .inl rfl

theorem runs_parts (g : Group) : ∀ p ∈ g.parts, Runs p := by
  simp only [Group.parts,List.forall_mem_cons]
  refine ⟨.inr (.opening g),.inr (.elements g),.inl rfl,.inl ?_,by simp⟩
  cases g <;> rfl

theorem encloses_runs : grammar.Encloses Runs where
  children p hp := by
    rcases hp with hp | hp
    · exact fun q hq => .inl (Parser.cutless_children hp hq)
    cases hp with
    | value => exact fun q hq => nomatch hq
    | document =>
      exact List.forall_mem_cons.mpr ⟨.inr .value,List.forall_mem_singleton.mpr (.inl rfl)⟩
    | body =>
      refine List.forall_mem_cons.mpr ⟨.inl rfl,List.forall_mem_cons.mpr ⟨.inr .core,?_⟩⟩
      exact List.forall_mem_singleton.mpr (.inl rfl)
    | core => exact List.forall_mem_map.mpr fun k _ => runs_kind k
    | group g =>
      cases g with
      | array => exact List.forall_mem_singleton.mpr (.inr .array)
      | object => exact List.forall_mem_singleton.mpr (.inr .object)
    | array => exact runs_parts .array
    | object => exact runs_parts .object
    | opening g => cases g <;> exact List.forall_mem_singleton.mpr (.inl rfl)
    | elements g =>
      cases g with
      | array => exact List.forall_mem_cons.mpr ⟨.inr .value,List.forall_mem_singleton.mpr (.inl rfl)⟩
      | object => exact List.forall_mem_cons.mpr ⟨.inr .pair,List.forall_mem_singleton.mpr (.inl rfl)⟩
    | pair =>
      simp only [pair,Parser.children,List.forall_mem_cons]
      exact ⟨.inl rfl,.inl rfl,.inl rfl,.inl rfl,.inl rfl,.inl rfl,.inr .value,by simp⟩
  body r name h := by
    rcases h with h | h
    · cases h
    · generalize hp : Parser.rule r name = p at h
      cases h with
      | value =>
        cases hp
        exact .inr .body
      | group g | opening g | elements g => cases g <;> cases hp
      | _ => cases hp
  next id p next name v q h := by
    rcases h with h | h
    · cases h
    · generalize hp : Parser.flatMap id p next name = p' at h
      cases h with
      | group g | opening g | elements g => cases g <;> cases hp
      | _ => cases hp

theorem Committed.branches {branches : List Parser} (h : Committed (.choice branches)) :
    branches = Kind.all.map Kind.parser := by
  generalize hp : Parser.choice branches = p at h
  cases h with
  | core =>
    cases hp
    rfl
  | group g | opening g | elements g => cases g <;> cases hp
  | _ => cases hp

/-- Only groups fail with a cut. -/
theorem group_of_cut {t : Text} {k : Kind} {n : Nat} {i j : Int} {cause : Parser}
    (h : grammar.eval t n k.parser i = .value (.failure j cause true)) :
    ∃ g : Group, Facing t i g.opening ∧ g.opening ∈ k.first := by
  cases k with
  | object => exact ⟨.object,facing_of_cut (g := .object) h,by decide⟩
  | array => exact ⟨.array,facing_of_cut (g := .array) h,by decide⟩
  | string | true | false | null | number => cases hasCut_of_cutless rfl h

theorem idle_runs (t : Text) : grammar.Idle t Runs := by
  intro branches hb p ps hsuffix n i j cause ho q hq
  rcases hb with hb | hb
  · have hp : p.cutless = true := Parser.cutless_of_mem hb (hsuffix.mem (by simp))
    cases hasCut_of_cutless hp ho
  · rw [hb.branches] at hsuffix
    obtain ⟨before,hsplit⟩ := hsuffix
    obtain ⟨l,l',hall,-,hl'⟩ := List.map_eq_append_iff.mp hsplit.symm
    obtain ⟨k,ks,rfl,rfl,rfl⟩ := List.map_eq_cons_iff.mp hl'
    obtain ⟨k',hk',rfl⟩ := List.mem_map.mp hq
    have hne : k ≠ k' := by
      have hnodup : (l ++ k :: ks).Nodup := hall ▸ (by decide : Kind.all.Nodup)
      rintro rfl
      exact (List.nodup_cons.mp (List.nodup_append.mp hnodup).2.1).1 hk'
    obtain ⟨g,hg,hk⟩ := group_of_cut ho
    exact hg.fails_kind (Kind.not_blank_of_mem_first hk) fun hmem => hne (Kind.eq_of_mem_first hk hmem)

/-- With or without its cuts the grammar does the same with every text, whatever it was used for
before: both succeed with the same value at the same position, or both fail at the same one. -/
theorem parse_document_uncut (t : Text) (hook : Option HookId) (config : Option Config)
    (xs ys : List Use) (hx : ∀ x ∈ xs, grammar.Has x.parser)
    (hy : ∀ y ∈ ys, grammar.uncut.Has y.parser) :
    ∃ deep, ∀ limit ≥ deep,
      let a := (Parsing.parse (world none) limit document t 0 hook config
        (xs.foldl (Use.perform (world none)) {})).1
      let b := (Parsing.parse (world none).uncut limit document.uncut t 0 hook config
        (ys.foldl (Use.perform (world none).uncut) {})).1
      (∃ v j cut cut', a = .value (.success v j cut) ∧ b = .value (.success v j cut')) ∨
        ∃ j cause cause' cut cut',
          a = .value (.failure j cause cut) ∧ b = .value (.failure j cause' cut') := by
  have hs : grammar.Settled (fun _ => 0) (xs.foldl (Use.perform (world none)) {}).memory :=
    performAll_settled supplied hx (settled_new grammar _)
  have hs' : grammar.uncut.Settled (fun _ => 0)
      (ys.foldl (Use.perform (world none).uncut) {}).memory :=
    performAll_settled supplied.uncut hy (settled_new grammar.uncut _)
  have hcalm : ∀ hook, ((world none).hook hook).Calm := fun _ => HookKind.calm_lines _ _
  have hends : ∃ o, grammar.Ends t document 0 (.value o) := by
    by_cases hd : ∃ v, Derives t (.padded v)
    · obtain ⟨v,hv⟩ := hd
      exact ⟨_,ends_document hv⟩
    · obtain ⟨cut,j,cause,hf⟩ := fails_document (not_exists.mp hd)
      exact ⟨_,hf⟩
  obtain ⟨o,ho⟩ := hends
  obtain ⟨o',ho',hu⟩ := ho.uncut encloses_runs (idle_runs t) (.inr .document)
  obtain ⟨deep,ha⟩ := ho.parse has_document (by simp) supplied hcalm hook config _ hs
  obtain ⟨deep',hb⟩ := ho'.parse has_document.uncut (by simp) supplied.uncut hcalm hook config _ hs'
  refine ⟨max deep deep',fun limit hl => ?_⟩
  rw [ha limit (by omega),hb limit (by omega)]
  cases hu with
  | success => exact .inl ⟨_,_,_,_,rfl,rfl⟩
  | failure => exact .inr ⟨_,_,_,_,_,rfl,rfl⟩

/-- A list in a record that is not closed, after other texts were parsed with and without cuts. -/
theorem parse_unclosed_uncut :
    let t : Text := "\x7b\"a\": [1, true], \"b\": [".toList
    let xs : List Use := [.parse 50 document "[[]".toList 0 none none]
    let ys : List Use := [.unit 9 document.uncut,.parse 50 document.uncut "[1]".toList 0 none none]
    ∃ deep, ∀ limit ≥ deep,
      let a := (Parsing.parse (world none) limit document t 0 none none
        (xs.foldl (Use.perform (world none)) {})).1
      let b := (Parsing.parse (world none).uncut limit document.uncut t 0 none none
        (ys.foldl (Use.perform (world none).uncut) {})).1
      (∃ v j cut cut', a = .value (.success v j cut) ∧ b = .value (.success v j cut')) ∨
        ∃ j cause cause' cut cut',
          a = .value (.failure j cause cut) ∧ b = .value (.failure j cause' cut') := by
  intro t xs ys
  have hd : grammar.uncut.Has document.uncut := has_document.uncut
  exact parse_document_uncut t none none xs ys (by simpa [xs,Use.parser] using has_document)
    (by simp [ys,Use.parser,hd])

end Peg.Samples.Json
