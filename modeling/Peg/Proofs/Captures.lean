import Peg.Proofs.Deepening
import Peg.Proofs.Grouping
import Peg.Proofs.Interchange
import Peg.Proofs.Repetition
import Peg.Proofs.Unrolling

/-! Captures of parts and of wholes.
A text is cut into pieces where the parts of a sequence or the rounds of a repetition end, and put
together again the pieces are what was consumed.  Main statement: captures of all parts of a sequence
end as the sequence does, with pieces that make up its capture; and so do captures of all rounds of
a repetition. -/
namespace Peg

namespace Text

variable {t : Text} {i j k : Int} {us : List Text}

/-- What stands between two positions and what follows up to a third one stand next to each
other. -/
theorem slice_append (hi : 0 ≤ i) (hij : i ≤ j) (hjk : j ≤ k) :
    t.slice i j ++ t.slice j k = t.slice i k := by
  obtain ⟨a,rfl⟩ := Int.eq_ofNat_of_zero_le hi
  obtain ⟨b,rfl⟩ := Int.eq_ofNat_of_zero_le (Int.le_trans hi hij)
  obtain ⟨c,rfl⟩ := Int.eq_ofNat_of_zero_le (Int.le_trans hi (Int.le_trans hij hjk))
  have hsum : (b - a) + (c - b) = c - a := by omega
  have hstart : a + (b - a) = b := by omega
  simp only [slice,bound_natCast]
  rw [← hsum,List.take_add,List.drop_drop,hstart]

/-- The pieces into which a text is cut on the way from one position to another. -/
inductive Tiles (t : Text) (i : Int) : List Text → Int → Prop
  | nil : Tiles t i [] i
  | snoc {us : List Text} {j k : Int} : Tiles t i us j → j ≤ k → Tiles t i (us ++ [t.slice j k]) k

theorem Tiles.onward (h : t.Tiles i us j) : i ≤ j := by
  induction h with
  | nil => exact Int.le_refl i
  | snoc _ hjk ih => exact Int.le_trans ih hjk

/-- Put together again, the pieces are what stands between the two positions. -/
theorem Tiles.flatten (h : t.Tiles i us j) (hi : 0 ≤ i) : us.flatten = t.slice i j := by
  induction h with
  | nil => simp
  | @snoc us j k h hjk ih => rw [List.flatten_append,ih,List.flatten_singleton,
      slice_append hi h.onward hjk]

end Text

namespace Outcome

variable {t : Text} {i : Int}

/-- What a capture makes of the outcome of its body. -/
def captured (t : Text) (i : Int) : Outcome → Outcome
  | success _ j cut => success (.str (t.slice i j)) j cut
  | failure j cause cut => failure j cause cut

/-- An outcome that does not lie before the start, beside what a capture makes of it. -/
structure Kept (t : Text) (i : Int) (o o' : Outcome) : Prop where
  onward : i ≤ o.index
  captured : o' = o.captured t i

/-- The outcome of a sequence beside the outcome of captures of its parts. -/
inductive Tiled (t : Text) (i : Int) (parts : Nat) : Outcome → Outcome → Prop
  | success {v : Value} {us : List Text} {j : Int} {cut : Bool} : t.Tiles i us j →
    us.length = parts → Tiled t i parts (.success v j cut) (.success (pack (us.map .str)) j cut)
  | failure {j : Int} {cause : Parser} {cut : Bool} :
    Tiled t i parts (.failure j cause cut) (.failure j cause cut)

/-- Outcomes with the same end, of which the first has pieces for values and the second has these
put together. -/
inductive Joined (t : Text) (i : Int) (wrap : List Value → Value) : Outcome → Outcome → Prop
  | success {us : List Text} {j : Int} {cut : Bool} : t.Tiles i us j → us.flatten = t.slice i j →
    Joined t i wrap (.success (wrap (us.map .str)) j cut) (.success (.str us.flatten) j cut)
  | failure {j : Int} {cause cause' : Parser} {cut : Bool} :
    Joined t i wrap (.failure j cause cut) (.failure j cause' cut)

/-- Of more parts than one the pieces make a tuple. -/
theorem Tiled.joined {o o' : Outcome} {parts : Nat} (h : o.Tiled t i parts o') (hi : 0 ≤ i)
    (hparts : 2 ≤ parts) : o'.Joined t i .tuple (o.captured t i) := by
  cases h with
  | failure => exact .failure
  | @success v us j cut hus hlength =>
    have hpack : pack (us.map .str) = .tuple (us.map .str) := by
      match us, hlength ▸ hparts with
      | _ :: _ :: _, _ => rfl
    have hflatten := hus.flatten hi
    rw [hpack,captured,← hflatten]
    exact .success hus hflatten

end Outcome

/-- Tallies that have come equally far, of which the second has pieces of the text for values. -/
inductive Tally.Tiled (t : Text) (i : Int) : Tally → Tally → Prop
  | mk {values : List Value} {us : List Text} {count : Nat} {cut : Bool} {stop : Int} :
    t.Tiles i us stop →
      Tally.Tiled t i ⟨values,count,cut,stop⟩ ⟨(us.map .str).reverse,count,cut,stop⟩

namespace Tally.Tiled

variable {t : Text} {i : Int} {tally tally' : Tally}

theorem count (h : tally.Tiled t i tally') : tally.count = tally'.count := by
  cases h
  rfl

theorem stop (h : tally.Tiled t i tally') : tally.stop = tally'.stop := by
  cases h
  rfl

end Tally.Tiled

namespace Parsing

theorem node_capture {m : Type → Type} [Monad m] [Abrupt m] [LawfulMonad m] (e : Surroundings m)
    (t : Text) (step : Parser → Int → m Outcome) (p : Parser) (i : Int) :
    node e t step (.capture p) i = Outcome.captured t i <$> step p i := by
  rw [← bind_pure_comp,node]
  refine bind_congr fun o => ?_
  cases o <;> rfl

section Rounds

variable {m : Type → Type} [Monad m] [LawfulMonad m]

/-- What always stands between elements, if nothing else does. -/
def nothing (j : Int) : m Outcome := pure (.success .none j false)

theorem attempt_nothing (element : Int → m Outcome) (tally : Tally) :
    attempt element nothing tally = element tally.stop >>= fun
      | .failure _ _ cut => pure (.error cut)
      | .success v stop cut => pure (.ok ⟨v,cut,stop⟩) := by
  have hgap : gap nothing tally = (pure (.success .none tally.stop false) : m Outcome) := by
    unfold gap nothing
    split <;> rfl
  rw [attempt,hgap,pure_bind]
  refine bind_congr fun o => ?_
  cases o <;> simp

variable [Abrupt m] {R : (α β : Type) → (α → β → Prop) → m α → m β → Prop} {t : Text} {i : Int}
  {element element' : Int → m Outcome}

theorem Lockstep.attempt_tiled (hR : Lockstep R)
    (he : ∀ j, R _ _ (Outcome.Kept t j) (element j) (element' j)) {tally tally' : Tally}
    (h : tally.Tiled t i tally') :
    R _ _ (fun a b => (∃ cut, a = .error cut ∧ b = .error cut) ∨
        ∃ r r', a = .ok r ∧ b = .ok r' ∧ (tally.after r).Tiled t i (tally'.after r'))
      (attempt element nothing tally) (attempt element' nothing tally') := by
  obtain @⟨values,us,count,cut,stop,hus⟩ := h
  rw [attempt_nothing,attempt_nothing]
  refine hR.bind (he stop) fun o o' ho => ?_
  obtain ⟨honward,rfl⟩ := ho
  cases o with
  | failure j cause c => exact hR.done (.inl ⟨c,rfl,rfl⟩)
  | success v j c =>
    refine hR.done (.inr ⟨_,_,rfl,rfl,?_⟩)
    have hvalues : Value.str (t.slice stop j) :: (us.map Value.str).reverse =
        ((us ++ [t.slice stop j]).map Value.str).reverse := by
      simp
    rw [Tally.after,Tally.after,hvalues]
    exact .mk (hus.snoc honward)

/-- Rounds of captures cut what the rounds of their bodies consume into pieces. -/
theorem Lockstep.rounds_tiled (hR : Lockstep R)
    (he : ∀ j, R _ _ (Outcome.Kept t j) (element j) (element' j)) (least : Nat)
    (most : Option Nat) (fuel : Nat) {tally tally' : Tally} (h : tally.Tiled t i tally') :
    R _ _ (Tally.Tiled t i) (Parsing.rounds element nothing least most fuel tally)
      (Parsing.rounds element' nothing least most fuel tally') := by
  induction fuel generalizing tally tally' with
  | zero =>
    rw [rounds_zero,rounds_zero,h.count]
    split
    · exact hR.done h
    · exact hR.exhaust
  | succ fuel ih =>
    rw [rounds_succ,rounds_succ,h.count]
    split
    · exact hR.done h
    · refine hR.bind (hR.attempt_tiled he h) fun a b hab => ?_
      rcases hab with ⟨cut,rfl,rfl⟩ | ⟨r,r',rfl,rfl,hafter⟩
      · obtain ⟨hus⟩ := h
        exact hR.done (.mk hus)
      · have hstop : r.stop = r'.stop := hafter.stop
        dsimp only
        rw [hstop,h.stop]
        split
        · exact hR.done hafter
        · exact ih hafter

/-- A repetition of captures ends as the repetition of their bodies does, with the pieces for its
values. -/
theorem Lockstep.repetition_joined (hR : Lockstep R)
    (he : ∀ j, R _ _ (Outcome.Kept t j) (element j) (element' j)) (hi : 0 ≤ i) (least : Nat)
    (most : Option Nat) (whole whole' : Parser) :
    R _ _ (fun o o' => o'.Joined t i .list (o.captured t i))
      (Parsing.repetition element nothing least most whole t i)
      (Parsing.repetition element' nothing least most whole' t i) := by
  unfold Parsing.repetition
  refine hR.bind (hR.rounds_tiled he least most _ (.mk .nil)) fun tally tally' h => ?_
  obtain @⟨values,us,count,cut,stop,hus⟩ := h
  dsimp only
  split
  · exact hR.done .failure
  · have hflatten := hus.flatten hi
    rw [List.reverse_reverse]
    refine hR.done ?_
    rw [Outcome.captured,← hflatten]
    exact .success hus hflatten

end Rounds

section Running

variable {w : World} {c : Context}

/-- What can be said of the value of a computation, if it gives one, in whatever state it starts. -/
def Always {α : Type} (x : Run α) (Q : α → Prop) : Prop :=
  ∀ s, (x s).1.Meets Q (fun _ => True) True

theorem always_logic : Logic (fun _ => True) fun (α : Type) (x : Run α) Q => Always x Q where
  done hQ _ := hQ
  imp := by
    intro α x P Q h hPQ s
    have hx := h s
    generalize (x s).1 = a at hx ⊢
    cases a with
    | value a => exact hPQ a hx
    | raised | exhausted => exact trivial
  bind := by
    intro α β x f P Q hx hf s
    have ha := hx s
    rw [Run.bind_apply]
    generalize x s = r at ha ⊢
    obtain ⟨a | fault | _,u⟩ := r
    · exact hf a ha u
    · exact trivial
    · exact trivial
  raise _ _ := trivial

theorem Always.any {α : Type} (x : Run α) : Always x fun _ => True := by
  intro s
  cases (x s).1 <;> exact trivial

theorem Always.traced {x : Run Outcome} {Q : Outcome → Prop} (h : Always x Q) (w : World)
    (c : Context) (hook : HookId) (name : Text) (i : Int) :
    Always (Hooks.traced id w c hook name i x) Q := by
  intro s
  cases Hooks.traced_traces w c hook name id i x s with
  | hidden _ hr => exact hr ▸ h s
  | stopped _ _ ha => exact ha ▸ trivial
  | @heard u _ _ _ _ _ _ ha =>
    rcases Answer.heard_cases _ (x u).1 with he | ⟨fault,-,he⟩
    · rw [ha,he]
      exact h u
    · rw [ha,he]
      exact trivial

theorem Always.logged {x : Run Outcome} {Q : Outcome → Prop} (h : Always x Q) (w : World)
    (c : Context) (own : Option HookId) (name : Text) (i : Int) :
    Always (Hooks.logged id w c own name i x) Q :=
  fun s => h.traced w c (Hooks.chosen w own c.hook s.tracing.calls) name i s

/-- No parser gives an outcome that lies before its start, whatever is remembered. -/
theorem run_forward (w : World) (c : Context) (n : Nat) (p : Parser) (i : Int) :
    Always (run w c n p i) fun o => c.text.Reaches False i o.index := by
  have hH := always_logic
  induction n generalizing p i with
  | zero => exact fun _ => trivial
  | succ n ih =>
    have hlands (q x : Parser) (j : Int) :
        Always (run w c n q j) (x.Lands (fun _ => True) c.text False j) :=
      hH.imp (ih q j) fun o ho => ⟨ho,fun _ _ _ => trivial⟩
    refine hH.imp (hH.node conservative_unknown p False.elim (fun _ _ _ _ _ => trivial)
      (fun _ _ => trivial) (fun q _ => hlands q q i) (fun q _ j _ _ => hlands q q j) ?_ ?_ ?_)
      fun o ho => ho.reaches
    · exact fun id parts _ => hH.imp (.any _) fun _ _ => .inr trivial
    · intro r name _
      refine hH.bind (.any _) fun q _ => ?_
      cases c.tracesRules with
      | some hook => exact (hlands q _ i).traced w c hook name i
      | none => exact hlands q _ i
    · exact fun id body name hook _ => (hlands body _ i).logged w c hook name i

/-- A capture is run beside its body. -/
theorem run_capture (w : World) (c : Context) (n : Nat) (p : Parser) (j : Int) :
    Run.Abreast _ _ (Outcome.Kept c.text j) (run w c n p j) (run w c (n + 1) (.capture p) j) := by
  intro s
  have hforward := run_forward w c n p j s
  have hcapture : run w c (n + 1) (.capture p) j = Outcome.captured c.text j <$> run w c n p j :=
    node_capture _ _ _ _ _
  rw [hcapture,Run.map_apply]
  generalize run w c n p j s = r at hforward ⊢
  obtain ⟨o | fault | _,u⟩ := r
  · exact .value ⟨Text.Reaches.onward hforward,rfl⟩
  · exact .raised
  · exact .exhausted

/-- A repetition of captures is run beside the capture of a repetition. -/
theorem parse_rep_captured (w : World) (id id' a b : Ident) (p : Parser) (least : Quantity)
    (most : Option Quantity) (n : Nat) (t : Text) {i : Int} (hi : 0 ≤ i) (hook : Option HookId)
    (config : Option Config) (s : State) :
    Run.Ends (Outcome.Joined t i .list)
      (parse w (n + 3) (.rep id (.capture p) least most (.terminal a .pass)) t i hook config s)
      (parse w (n + 3) (.capture (.rep id' p least most (.terminal b .pass))) t i hook config s) := by
  let c : Context := ⟨t,hook.or s.ambientHook,config.or s.ambientConfig⟩
  have hjoined := Run.abreast_lockstep.repetition_joined (run_capture w c (n + 1) p) hi least.toNat
    (most.map (·.toNat)) (.rep id' p least most (.terminal b .pass))
    (.rep id (.capture p) least most (.terminal a .pass)) (s.setDepth 0)
  have hcapture : run w c (n + 3) (.capture (.rep id' p least most (.terminal b .pass))) i =
      Outcome.captured t i <$>
        run w c (n + 2) (.rep id' p least most (.terminal b .pass)) i :=
    node_capture _ _ _ _ _
  have hparse (q : Parser) :
      parse w (n + 3) q t i hook config s = run w c (n + 3) q i (s.setDepth 0) := rfl
  rw [hparse,hparse,hcapture,← id_map (run w c (n + 3) _ i)]
  exact hjoined.flip.map fun _ _ h => h

end Running

end Parsing

namespace Grammar

variable {G : Grammar} {w : World} {c : Context} {p : Parser} {ps : List Parser} {i j : Int}
  {refusals : RuleId → Nat} {a : Answer Outcome}

/-- The meaning of a capture is what it makes of the meaning of its body. -/
theorem meaning_capture (p : Parser) (i : Int) : Run.Abreast _ _ (· = ·) (G.meaning w c (.capture p) i)
    (Outcome.captured c.text i <$> G.meaning w c p i) := by
  rw [← Parsing.node_capture (G.observed w c)]
  exact meaning_ends (.capture p) i

theorem meaning_onward {o : Outcome} {s u : State} (h : G.meaning w c p i s = (.value o,u)) :
    i ≤ o.index := by
  obtain ⟨deep,hdeep⟩ := means_settlesTo G w c p i s
  have hmeans : (G.means w c deep p i s).1 = .value o := by
    rw [(hdeep deep (Nat.le_refl deep)).answer_eq,h]
  exact (Ends.of_eval (eval_of_means hmeans)).reaches.onward

/-- A capture means what its body does, and what the body consumed for a value. -/
theorem capture_kept (p : Parser) (i : Int) : Run.Abreast _ _ (Outcome.Kept c.text i)
    (G.meaning w c p i) (G.meaning w c (.capture p) i) := by
  have hbody : Run.Abreast _ _ (Outcome.Kept c.text i) (G.meaning w c p i)
      (Outcome.captured c.text i <$> G.meaning w c p i) := by
    intro s
    rw [Run.map_apply]
    rcases h : G.meaning w c p i s with ⟨o | fault | _,u⟩
    · exact .value ⟨meaning_onward h,rfl⟩
    · exact .raised
    · exact .exhausted
  exact fun s => (hbody s).trans (meaning_capture p i s).flip fun _ _ _ h heq => heq ▸ h

/-- Captures of all parts of a sequence, some of which have been run already, cut what the parts
consume into pieces. -/
theorem sequence_tiled {us : List Text} (h : c.text.Tiles i us j) (ps : List Parser)
    (values : List Value) (seen : Bool) :
    Run.Abreast _ _ (Outcome.Tiled c.text i (us.length + ps.length))
      (Parsing.sequence (G.meaning w c) (ps.zip (ps.map G.isUnit)) values seen j)
      (Parsing.sequence (G.meaning w c) ((ps.map .capture).zip ((ps.map .capture).map G.isUnit))
        (us.map .str).reverse seen j) := by
  induction ps generalizing us values seen j with
  | nil =>
    refine Run.abreast_lockstep.done ?_
    rw [List.reverse_reverse]
    exact .success h rfl
  | cons p ps ih =>
    refine Run.abreast_lockstep.bind (capture_kept p j) fun o o' ho => ?_
    obtain ⟨honward,rfl⟩ := ho
    cases o with
    | failure k cause cut => exact Run.abreast_lockstep.done .failure
    | success v k cut =>
      have hjk : j ≤ k := honward
      have hrest := ih (h.snoc hjk) (if G.isUnit p then values else v :: values) (seen || cut)
      have hlength : (us ++ [c.text.slice j k]).length + ps.length = us.length + (p :: ps).length := by
        simp [Nat.add_comm,Nat.add_left_comm]
      have hkept : ((us ++ [c.text.slice j k]).map Value.str).reverse =
          if G.isUnit (.capture p) then (us.map Value.str).reverse
          else Value.str (c.text.slice j k) :: (us.map Value.str).reverse := by
        rw [isUnit_capture]
        simp
      rw [hlength,hkept] at hrest
      exact hrest

theorem seq_tiled (id id' : Ident) (ps : List Parser) (i : Int) :
    Run.Abreast _ _ (Outcome.Tiled c.text i ps.length) (G.meaning w c (.seq id ps) i)
      (G.meaning w c (.seq id' (ps.map .capture)) i) := by
  have h := sequence_tiled (G := G) (w := w) (c := c) (.nil (i := i)) ps [] false
  rw [List.length_nil,Nat.zero_add] at h
  intro s
  have hleft := (meaning_seq id ps i s).trans (h s) fun _ _ _ heq h => heq ▸ h
  exact hleft.trans (meaning_seq id' (ps.map .capture) i s).flip fun _ _ _ h heq => heq ▸ h

/-- Captures of all parts of a sequence end as the sequence does, and so do captures of all rounds of
a repetition; and what their values are makes up, put together, what the capture of the whole gives,
which is the text from the start to the end. -/
theorem captures_tile (hw : G.Supplied w refusals) (c : Context) {i : Int} (hi : 0 ≤ i) :
    (∀ id id' ps, 2 ≤ ps.length → G.Has (.seq id ps) → G.Has (.seq id' (ps.map .capture)) →
      ∃ x y, G.Accounts w refusals c (.seq id ps) i x ∧
        G.Accounts w refusals c (.seq id' (ps.map .capture)) i y ∧
        G.Accounts w refusals c (.capture (.seq id ps)) i (Outcome.captured c.text i <$> x) ∧
        ∀ s, Run.Ends (fun o o' => o'.Joined c.text i .tuple (o.captured c.text i)) (x s) (y s)) ∧
    ∀ id id' p least most,
      Results (fun q r => ∀ limit ≥ 3, ∀ hook config s,
          Run.Ends (Outcome.Joined c.text i .list)
            (Parsing.parse w limit q c.text i hook config s)
            (Parsing.parse w limit (.capture r) c.text i hook config s))
        (Parser.between id (.capture p) least most none) (Parser.between id' p least most none) := by
  refine ⟨fun id id' ps hps hp hq => ?_,fun id id' p least most => ?_⟩
  · exact ⟨_,_,accounts_meaning hw hp i,accounts_meaning hw hq i,
      (accounts_meaning hw (.capture hp) i).congr (meaning_capture _ i),
      fun s => (seq_tiled id id' ps i s).imp fun o o' h => h.joined hi hps⟩
  · unfold Parser.between
    split
    · exact .error _
    · split
      · exact .error _
      · refine .ok fun limit hlimit hook config s => ?_
        obtain ⟨n,rfl⟩ := Nat.exists_eq_add_of_le' hlimit
        exact Parsing.parse_rep_captured w id id' _ _ p least most n c.text hi hook config s

/-- A letter that may be missing and a letter that a rule stands for, alone and captured. -/
def pieces : Grammar where
  rules := [.named "b"]
  body _ := .terminal (.named "second") (.char 'b')
  parts
    | .named "parts" => some both
    | .named "captures" => some (both.map .capture)
    | _ => none
  closed := fun _ _ => .terminal
where
  both : List Parser :=
    [.opt (.terminal (.named "first") (.char 'a')),.rule (.named "b") "b".toList]

/-- The two letters are found as pieces of the text, also under a hook that raises; and so are letters
that are repeated. -/
theorem captures_tile_pieces :
    let w : World := ⟨fun r _ => .ok (pieces.body r),fun _ => .recording (some .exit),fun n => n⟩
    let c : Context := ⟨"ab".toList,some .standard,some ⟨true,none⟩⟩
    let parts : Parser := .seq (.named "parts") pieces.both
    let captures : Parser := .seq (.named "captures") (pieces.both.map .capture)
    let letter : Parser := .terminal (.named "letter") (.char 'a')
    let nothing (id : Ident) : Parser := .terminal (.part 1 id) .pass
    (∃ x y, pieces.Accounts w (fun _ => 0) c parts 0 x ∧
      pieces.Accounts w (fun _ => 0) c captures 0 y ∧
      pieces.Accounts w (fun _ => 0) c (.capture parts) 0 (Outcome.captured c.text 0 <$> x) ∧
      ∀ s, Run.Ends (fun o o' => o'.Joined c.text 0 .tuple (o.captured c.text 0)) (x s) (y s)) ∧
    Run.Ends (Outcome.Joined c.text 0 .list)
      (Parsing.parse w 9 (.rep (.named "letters") (.capture letter) 1 (some 2)
        (nothing (.named "letters"))) c.text 0 none none {})
      (Parsing.parse w 9 (.capture (.rep (.named "whole") letter 1 (some 2)
        (nothing (.named "whole")))) c.text 0 none none {}) := by
  intro w c parts captures letter nothing
  have hw : pieces.Supplied w fun _ => 0 := fun r _ => ⟨by simp,rfl⟩
  have hfirst : pieces.Has (.opt (.terminal (.named "first") (.char 'a'))) := .opt .terminal
  have hsecond : pieces.Has (.rule (.named "b") "b".toList) := .rule (by simp [pieces])
  have hparts : pieces.Has parts :=
    .seq rfl (List.forall_mem_cons.mpr ⟨hfirst,List.forall_mem_singleton.mpr hsecond⟩)
  have hcaptures : pieces.Has captures := .seq rfl
    (List.forall_mem_cons.mpr ⟨.capture hfirst,List.forall_mem_singleton.mpr (.capture hsecond)⟩)
  obtain ⟨hseq,hrep⟩ := captures_tile hw c (Int.le_refl 0)
  refine ⟨hseq (.named "parts") (.named "captures") pieces.both (by decide) hparts hcaptures,?_⟩
  have hbetween : Results _ (.ok _) (.ok _) := hrep (.named "letters") (.named "whole") letter 1 (some 2)
  cases hbetween with
  | ok h => exact h 9 (by decide) none none {}

/-- A sequence asks which of its parts are unit parsers, and captures of the parts ask nothing: where
a supplier refuses that no part needs, they succeed and the sequence does not. -/
theorem captures_succeed_without_asking :
    let letter : Parser := .terminal (.named "letter") (.char 'a')
    let parts : List Parser := [letter,.choice [letter,.rule (.named "late") "late".toList]]
    let w : World := ⟨fun _ n => if n = 0 then .error .notReady else .ok letter,
      fun _ => .recording none,fun _ => 0⟩
    (Parsing.parse w 9 (.seq (.named "captures") (parts.map .capture)) "aa".toList 0 none none
      {}).1 = .value (.success (.tuple [.str "a".toList,.str "a".toList]) 2 false) ∧
    (Parsing.parse w 9 (.seq (.named "parts") parts) "aa".toList 0 none none {}).1 =
      .raised .notReady :=
  ⟨rfl,rfl⟩

end Grammar
end Peg
