import Peg.Proofs.Execution
import Peg.Samples

/-! How far a cut is carried.
A cut shows in an execution when some cut node in it committed and nothing on the way to that node
takes cuts in: no negation, no option whose body failed, no choice that succeeded.  Main statement:
the outcome of a parse has a cut exactly when a cut shows in what was executed, and a choice goes
no further than a branch that fails with a cut. -/
namespace Peg

namespace Execution

/-- A cut node whose body succeeded. -/
def commits : Execution → Bool
  | mk (.cut _) _ _ xs => xs.any (·.outcome.isSuccess)
  | _ => false

/-- What takes a cut in: a negation, an option whose body failed, a choice that succeeded. -/
def absorbs : Execution → Bool
  | mk (.not _) _ _ _ => true
  | mk (.opt _) _ _ xs => xs.any (!·.outcome.isSuccess)
  | mk (.choice _) _ o _ => o.isSuccess
  | _ => false

/-- A node that committed can be reached without passing a node that takes cuts in. -/
inductive ShowsCut : Execution → Prop
  | here {x : Execution} : x.commits = true → ShowsCut x
  | inside {x y : Execution} : x.absorbs = false → y ∈ x.inner → ShowsCut y → ShowsCut x

/-- One execution was made in the course of another, or is that execution. -/
inductive Within (x : Execution) : Execution → Prop
  | self : Within x x
  | inside {y z : Execution} : Within x y → z ∈ y.inner → Within x z

/-- A property of an execution and of all executions made in its course. -/
inductive Throughout (P : Execution → Prop) : Execution → Prop
  | mk {x : Execution} : P x → (∀ y ∈ x.inner, Throughout P y) → Throughout P x

theorem Throughout.within {P : Execution → Prop} {x y : Execution} (h : x.Throughout P)
    (hy : x.Within y) : y.Throughout P := by
  induction hy with
  | self => exact h
  | inside _ hz ih =>
    cases ih with
    | mk _ hi => exact hi _ hz

theorem absorbs_of_commits {x : Execution} (h : x.commits = true) : x.absorbs = false := by
  obtain ⟨p,i,o,xs⟩ := x
  cases p <;> simp_all [commits,absorbs]

/-- The branches that a choice ran: from the first one on, all from its own position, and none
after one that failed with a cut. -/
structure RanInOrder (branches : List Parser) (whole : Parser) (i : Int) (o : Outcome)
    (xs : List Execution) : Prop where
  fromFirst : xs.map parser <+: branches
  inPlace : ∀ x ∈ xs, x.start = i
  stops : ∀ earlier y later, xs = earlier ++ y :: later → y.outcome.isSuccess = false →
    y.outcome.hasCut = true → later = [] ∧ o = .failure i whole true

/-- A choice may end with any branch, but after one that fails with a cut it fails with it. -/
theorem RanInOrder.last {p : Parser} {ps : List Parser} {whole : Parser} {i : Int} {o : Outcome}
    {x : Execution} (hp : x.parser = p) (hi : x.start = i)
    (h : x.outcome.isSuccess = false → x.outcome.hasCut = true → o = .failure i whole true) :
    RanInOrder (p :: ps) whole i o [x] where
  fromFirst := by simp [hp]
  inPlace := by simp [hi]
  stops := by
    intro earlier y later he hy hc
    cases earlier with
    | nil =>
      obtain ⟨rfl,rfl⟩ : x = y ∧ [] = later := by simpa using he
      exact ⟨rfl,h hy hc⟩
    | cons z earlier => simp at he

/-- A branch without a cut may stand before what the other branches do. -/
theorem RanInOrder.cons {p : Parser} {ps : List Parser} {whole : Parser} {i : Int} {o : Outcome}
    {x : Execution} {xs : List Execution} (hp : x.parser = p) (hi : x.start = i)
    (hc : x.outcome.hasCut = false) (h : RanInOrder ps whole i o xs) :
    RanInOrder (p :: ps) whole i o (x :: xs) where
  fromFirst := by simpa [hp] using h.fromFirst
  inPlace := by simpa [hi] using h.inPlace
  stops := by
    intro earlier y later he hy hyc
    cases earlier with
    | nil =>
      obtain ⟨rfl,-⟩ : x = y ∧ xs = later := by simpa using he
      rw [hc] at hyc
      cases hyc
    | cons z earlier =>
      obtain ⟨-,he⟩ : x = z ∧ xs = earlier ++ y :: later := by simpa using he
      exact h.stops earlier y later he hy hyc

/-- Whether some execution ended with a cut. -/
def anyCut (xs : List Execution) : Bool := xs.any (·.outcome.hasCut)

@[simp] theorem anyCut_nil : anyCut [] = false := rfl

@[simp] theorem anyCut_cons (x : Execution) (xs : List Execution) :
    anyCut (x :: xs) = (x.outcome.hasCut || anyCut xs) := rfl

@[simp] theorem anyCut_append (xs ys : List Execution) :
    anyCut (xs ++ ys) = (anyCut xs || anyCut ys) := List.any_append

/-- What holds at every single execution. -/
structure Lawful (x : Execution) : Prop where
  hasCut : x.outcome.hasCut =
    (!x.absorbs && (x.commits || anyCut x.inner))
  choice : ∀ branches, x.parser = .choice branches →
    RanInOrder branches x.parser x.start x.outcome x.inner

/-- All these executions are lawful, and so is all that was made in their course. -/
def AllLawful (xs : List Execution) : Prop := ∀ x ∈ xs, x.Throughout Lawful

@[simp] theorem allLawful_nil : AllLawful [] := by
  simp [AllLawful]

@[simp] theorem allLawful_cons (x : Execution) (xs : List Execution) :
    AllLawful (x :: xs) ↔ x.Throughout Lawful ∧ AllLawful xs := by
  simp [AllLawful]

@[simp] theorem allLawful_append (xs ys : List Execution) :
    AllLawful (xs ++ ys) ↔ AllLawful xs ∧ AllLawful ys := by
  simp [AllLawful,or_imp,forall_and]

theorem hasCut_iff_showsCut {x : Execution} (h : x.Throughout Lawful) :
    x.outcome.hasCut = true ↔ x.ShowsCut := by
  induction h with
  | @mk x hx hi ih =>
    rw [hx.hasCut,Bool.and_eq_true,Bool.or_eq_true,anyCut,List.any_eq_true]
    constructor
    · rintro ⟨ha,hc | ⟨y,hy,hc⟩⟩
      · exact .here hc
      · exact .inside (by simpa using ha) hy ((ih y hy).mp hc)
    · intro hs
      cases hs with
      | here hc => exact ⟨by simp [absorbs_of_commits hc],Or.inl hc⟩
      | inside ha hy hc => exact ⟨by simp [ha],Or.inr ⟨_,hy,(ih _ hy).mpr hc⟩⟩

end Execution

namespace Recorded

variable {α β : Type}

/-- Whatever value a computation gives with whatever executions, they are related. -/
def Ensures (x : Recorded α) (Q : α → List Execution → Prop) : Prop :=
  ∀ s a xs s', x.run s = (.value (a,xs),s') → Q a xs

theorem Ensures.imp {x : Recorded α} {P Q : α → List Execution → Prop} (h : Ensures x P)
    (hPQ : ∀ a xs, P a xs → Q a xs) : Ensures x Q :=
  fun s a xs s' hr => hPQ a xs (h s a xs s' hr)

theorem Ensures.done {Q : α → List Execution → Prop} {a : α} (h : Q a []) :
    Ensures (pure a) Q := by
  intro s b xs s' hr
  cases hr
  exact h

theorem Ensures.bind {x : Recorded α} {f : α → Recorded β} {P : α → List Execution → Prop}
    {Q : β → List Execution → Prop} (hx : Ensures x P)
    (hf : ∀ a xs, P a xs → Ensures (f a) fun b ys => Q b (xs ++ ys)) : Ensures (x >>= f) Q := by
  intro s b zs s' hr
  obtain ⟨⟨a,xs⟩,u,ha,hr⟩ := Run.bind_eq_value_iff.mp hr
  obtain ⟨⟨b',ys⟩,v,hb,hr⟩ := Run.bind_eq_value_iff.mp hr
  cases hr
  exact hf a xs (hx s a xs u ha) u _ ys s' hb

theorem Ensures.silent {Q : α → List Execution → Prop} {x : Run α} (h : ∀ a, Q a []) :
    Ensures (silent x) Q := by
  intro s a xs s' hr
  obtain ⟨b,-,hb⟩ := Run.map_eq_value_iff.mp hr
  cases hb
  exact h _

theorem Ensures.raise {Q : α → List Execution → Prop} {fault : Fault} :
    Ensures (Abrupt.raise fault) Q := by
  intro s a xs s' hr
  cases hr

theorem Ensures.exhaust {Q : α → List Execution → Prop} : Ensures Abrupt.exhaust Q := by
  intro s a xs s' hr
  cases hr

theorem Ensures.note {x : Recorded Outcome} {Q : Outcome → List Execution → Prop} {p : Parser}
    {i : Int} (h : Ensures x Q) :
    Ensures (note p i x) fun o ys => ∃ xs, ys = [.mk p i o xs] ∧ Q o xs := by
  intro s o ys s' hr
  obtain ⟨⟨o',xs⟩,hx,hb⟩ := Run.map_eq_value_iff.mp hr
  cases hb
  exact ⟨xs,rfl,h s _ xs _ hx⟩

/-- A traced node gives only what the node gives. -/
theorem Ensures.traced {x : Recorded Outcome} {Q : Outcome → List Execution → Prop} {w : World}
    {c : Context} {name : Text} {i : Int} (h : Ensures x Q) (hook : HookId) :
    Ensures ⟨Hooks.traced Prod.fst w c hook name i x.run⟩ Q := by
  intro s a xs s' hr
  change Hooks.traced Prod.fst w c hook name i x.run s = _ at hr
  have ht := Hooks.traced_traces w c hook name Prod.fst i x.run s
  rw [hr] at ht
  cases ht with
  | hidden _ hx => exact h s a xs s' hx.symm
  | stopped _ _ ha => cases ha
  | @heard u _ _ _ _ _ _ ha =>
    exact h u a xs (x.run u).2 (Prod.ext (Answer.heard_eq_value ha.symm) rfl)

theorem Ensures.logged {x : Recorded Outcome} {Q : Outcome → List Execution → Prop} {w : World}
    {c : Context} {own : Option HookId} {name : Text} {i : Int} (h : Ensures x Q) :
    Ensures ⟨Hooks.logged Prod.fst w c own name i x.run⟩ Q :=
  fun s => h.traced (Hooks.chosen w own c.hook s.tracing.calls) s

/-- What one execution of a parser notes. -/
def Noted (p : Parser) (i : Int) (o : Outcome) (xs : List Execution) : Prop :=
  ∃ x : Execution, xs = [x] ∧ x.parser = p ∧ x.start = i ∧ x.outcome = o ∧
    x.Throughout Execution.Lawful

open Execution

variable {step : Parser → Int → Recorded Outcome}

theorem ensures_sequence (h : ∀ p i, Ensures (step p i) (Noted p i))
    (parts : List (Parser × Bool)) (values : List Value) (cut : Bool) (i : Int) :
    Ensures (Parsing.sequence step parts values cut i) fun o xs =>
      o.hasCut = (cut || anyCut xs) ∧ AllLawful xs := by
  induction parts generalizing values cut i with
  | nil => exact .done (by simp [Outcome.hasCut])
  | cons x rest ih =>
    obtain ⟨p,unit⟩ := x
    refine .bind (h p i) ?_
    rintro o _ ⟨x,rfl,-,-,rfl,hx⟩
    cases ho : x.outcome with
    | failure j cause c => exact .done (by simp [Outcome.hasCut,ho,hx])
    | success v j c =>
      refine (ih _ _ _).imp fun o ys ⟨hc,hl⟩ => ⟨?_,by simp [hx,hl]⟩
      rw [hc]
      simp [Outcome.hasCut,ho,Bool.or_assoc]

theorem ensures_choice (h : ∀ p i, Ensures (step p i) (Noted p i)) (whole : Parser) (i : Int)
    (branches : List Parser) :
    Ensures (Parsing.choice step whole i branches) fun o xs =>
      o.hasCut = (!o.isSuccess && anyCut xs) ∧ AllLawful xs ∧
        RanInOrder branches whole i o xs := by
  induction branches with
  | nil => exact .done ⟨rfl,by simp,⟨by simp,by simp,by simp⟩⟩
  | cons p ps ih =>
    refine .bind (h p i) ?_
    rintro o _ ⟨x,rfl,hp,hi,rfl,hx⟩
    cases ho : x.outcome with
    | success v j c =>
      exact .done ⟨rfl,by simp [hx],.last hp hi (by simp [ho,Outcome.isSuccess])⟩
    | failure j cause c =>
      cases c with
      | true =>
        refine .done ⟨?_,by simp [hx],.last hp hi fun _ _ => rfl⟩
        simp [ho,Outcome.hasCut,Outcome.isSuccess]
      | false =>
        have hc : x.outcome.hasCut = false := by rw [ho]; rfl
        refine ih.imp fun o ys ⟨ho,hl,hr⟩ => ⟨?_,by simp [hx,hl],.cons hp hi hc hr⟩
        rw [ho]
        simp [hc]

theorem ensures_gap {separator : Int → Recorded Outcome} {q : Parser}
    (hs : ∀ i, Ensures (separator i) (Noted q i)) (t : Tally) :
    Ensures (Parsing.gap separator t) fun o xs => o.hasCut = anyCut xs ∧ AllLawful xs := by
  unfold Parsing.gap
  split
  · exact .done ⟨rfl,by simp⟩
  · refine (hs t.stop).imp ?_
    rintro o _ ⟨x,rfl,-,-,rfl,hx⟩
    simp [hx]

theorem ensures_rounds {element separator : Int → Recorded Outcome} {p q : Parser}
    (he : ∀ i, Ensures (element i) (Noted p i)) (hs : ∀ i, Ensures (separator i) (Noted q i))
    (least : Nat) (most : Option Nat) (fuel : Nat) (t : Tally) :
    Ensures (Parsing.rounds element separator least most fuel t) fun t' xs =>
      t'.cut = (t.cut || anyCut xs) ∧ AllLawful xs := by
  induction fuel generalizing t with
  | zero =>
    unfold Parsing.rounds
    split
    · exact .done (by simp)
    · exact .exhaust
  | succ fuel ih =>
    unfold Parsing.rounds
    split
    · exact .done (by simp)
    · refine .bind (ensures_gap hs t) ?_
      rintro o xs ⟨ho,hl⟩
      cases o with
      | failure j cause c =>
        exact .done ⟨by simpa [Outcome.hasCut] using congrArg _ ho,by simpa using hl⟩
      | success v start c =>
        refine .bind (he start) ?_
        rintro o _ ⟨x,rfl,-,-,rfl,hx⟩
        have hc : c = anyCut xs := ho
        cases hxo : x.outcome with
        | failure j cause d =>
          exact .done ⟨by simp [hxo,hc,Outcome.hasCut,Bool.or_assoc],by simp [hl,hx]⟩
        | success v j d =>
          dsimp only
          split
          · exact .done ⟨by simp [hxo,hc,Outcome.hasCut,Bool.or_assoc],by simp [hl,hx]⟩
          · refine (ih _).imp ?_
            rintro t' ys ⟨ht,hy⟩
            refine ⟨?_,by simp [hl,hx,hy]⟩
            rw [ht]
            simp [hxo,hc,Outcome.hasCut,Bool.or_assoc]

theorem ensures_repetition {element separator : Int → Recorded Outcome} {p q : Parser}
    (he : ∀ i, Ensures (element i) (Noted p i)) (hs : ∀ i, Ensures (separator i) (Noted q i))
    (least : Nat) (most : Option Nat) (whole : Parser) (t : Text) (i : Int) :
    Ensures (Parsing.repetition element separator least most whole t i) fun o xs =>
      o.hasCut = anyCut xs ∧ AllLawful xs := by
  refine .bind (ensures_rounds he hs least most _ _) ?_
  rintro tally xs ⟨hc,hl⟩
  split
  · exact .done ⟨by simpa [Outcome.hasCut] using hc,by simpa using hl⟩
  · exact .done ⟨by simpa [Outcome.hasCut] using hc,by simpa using hl⟩

end Recorded

namespace Parsing

open Execution Recorded

/-- The outcome has a cut exactly when something that was run had one. -/
def Passes (o : Outcome) (xs : List Execution) : Prop := o.hasCut = anyCut xs ∧ AllLawful xs

theorem passes_of_noted {p : Parser} {i : Int} {o : Outcome} {xs : List Execution}
    (h : Noted p i o xs) : Passes o xs := by
  obtain ⟨x,rfl,-,-,rfl,hx⟩ := h
  exact ⟨by simp,by simpa using hx⟩

/-- Any node but a choice is lawful if the cut in its outcome is what the cuts in it amount to. -/
theorem noted_of_lawful {p : Parser} (hp : ∀ branches, p ≠ .choice branches) {i : Int}
    {x : Recorded Outcome} (h : Ensures x fun o xs =>
      o.hasCut = (!(Execution.mk p i o xs).absorbs && ((Execution.mk p i o xs).commits || anyCut xs)) ∧
        AllLawful xs) : Ensures (.note p i x) (Noted p i) := by
  refine h.note.imp ?_
  rintro o _ ⟨xs,rfl,hc,hl⟩
  exact ⟨_,rfl,rfl,rfl,rfl,.mk ⟨hc,fun bs h => absurd h (hp bs)⟩ hl⟩

/-- A node that neither commits nor takes cuts in is lawful if it passes on the cuts in it. -/
theorem noted_of_passes {p : Parser} (hp : ∀ branches, p ≠ .choice branches)
    (ha : ∀ i o xs, (Execution.mk p i o xs).absorbs = false)
    (hm : ∀ i o xs, (Execution.mk p i o xs).commits = false) {i : Int} {x : Recorded Outcome}
    (h : Ensures x Passes) : Ensures (.note p i x) (Noted p i) :=
  noted_of_lawful hp (h.imp fun o xs hx => by simpa [ha,hm,Passes] using hx)

/-- What goes on after a success, and leaves a failure alone, passes on the cut before it. -/
theorem passes_bind {p : Parser} {i : Int} {x : Recorded Outcome} {f : Outcome → Recorded Outcome}
    (h : Ensures x (Noted p i)) (hf : ∀ j cause cut,
      f (.failure j cause cut) = pure (.failure j cause cut))
    (hs : ∀ v j cut, Ensures (f (.success v j cut)) fun o xs =>
      o.hasCut = (cut || anyCut xs) ∧ AllLawful xs) : Ensures (x >>= f) Passes := by
  refine .bind h ?_
  rintro o _ ⟨x,rfl,-,-,rfl,hx⟩
  cases hxo : x.outcome with
  | success v j cut =>
    refine (hs v j cut).imp ?_
    rintro o ys ⟨ho,hl⟩
    exact ⟨by simpa [hxo,Outcome.hasCut] using ho,by simp [hx,hl]⟩
  | failure j cause cut =>
    rw [hf]
    exact .done ⟨by simp [hxo,Outcome.hasCut],by simpa using hx⟩

/-- Every node of a recorded run notes one lawful execution: its own. -/
theorem ensures_record (w : World) (c : Context) (n : Nat) (p : Parser) (i : Int) :
    Ensures (record w c n p i) (Noted p i) := by
  induction n generalizing p i with
  | zero => exact .exhaust
  | succ n ih =>
    rw [record,node.eq_def]
    cases p with
    | terminal id t =>
      refine noted_of_passes (by simp) (fun _ _ _ => rfl) (fun _ _ _ => rfl) ?_
      dsimp only
      rcases t.scan c.text i with fault | _ | j
      · exact .raise
      · exact .done ⟨rfl,by simp⟩
      · exact .done ⟨rfl,by simp⟩
    | seq id parts =>
      refine noted_of_passes (by simp) (fun _ _ _ => rfl) (fun _ _ _ => rfl) ?_
      refine .bind (.silent (Q := fun _ xs => xs = []) fun _ => rfl) ?_
      rintro units _ rfl
      exact (ensures_sequence ih _ _ _ _).imp fun o xs h => by simpa [Passes] using h
    | choice branches =>
      refine (ensures_choice ih (.choice branches) i branches).note.imp ?_
      rintro o _ ⟨xs,rfl,hc,hl,hr⟩
      refine ⟨_,rfl,rfl,rfl,rfl,.mk ⟨?_,?_⟩ hl⟩
      · simpa [absorbs,commits,Execution.outcome,Execution.inner] using hc
      · rintro bs ⟨⟩
        exact hr
    | rep id element least most separator =>
      exact noted_of_passes (by simp) (fun _ _ _ => rfl) (fun _ _ _ => rfl)
        (ensures_repetition (ih _) (ih _) _ _ _ _ _)
    | opt body | not body | cut body =>
      refine noted_of_lawful (by simp) (.bind (ih body i) ?_)
      rintro o _ ⟨x,rfl,-,-,rfl,hx⟩
      have hl : AllLawful [x] := by simpa using hx
      cases hxo : x.outcome with
      | success v j cut =>
        exact .done ⟨by simp [absorbs,commits,hxo,Outcome.hasCut,Outcome.isSuccess],hl⟩
      | failure j cause cut =>
        exact .done ⟨by simp [absorbs,commits,hxo,Outcome.hasCut,Outcome.isSuccess],hl⟩
    | map id body f name =>
      refine noted_of_passes (by simp) (fun _ _ _ => rfl) (fun _ _ _ => rfl) ?_
      refine passes_bind (ih body i) (fun _ _ _ => rfl) fun v j cut => ?_
      dsimp only
      cases f v with
      | ok u => exact .done (by simp [Outcome.hasCut])
      | error fault => exact .raise
    | flatMap id body next name =>
      refine noted_of_passes (by simp) (fun _ _ _ => rfl) (fun _ _ _ => rfl) ?_
      refine passes_bind (ih body i) (fun _ _ _ => rfl) fun v j cut => ?_
      dsimp only
      cases next v with
      | ok q =>
        refine .bind (ih q j) ?_
        rintro o _ ⟨y,rfl,-,-,rfl,hy⟩
        exact .done ⟨by simp,by simpa using hy⟩
      | error fault => exact .raise
    | filter id body test name =>
      refine noted_of_passes (by simp) (fun _ _ _ => rfl) (fun _ _ _ => rfl) ?_
      refine passes_bind (ih body i) (fun _ _ _ => rfl) fun v j cut => ?_
      dsimp only
      rcases test v with fault | _ | _
      · exact .raise
      · exact .done (by simp [Outcome.hasCut])
      · exact .done (by simp [Outcome.hasCut])
    | capture body =>
      refine noted_of_passes (by simp) (fun _ _ _ => rfl) (fun _ _ _ => rfl) ?_
      refine passes_bind (ih body i) (fun _ _ _ => rfl) fun v j cut => ?_
      exact .done (by simp [Outcome.hasCut])
    | rule r name =>
      refine noted_of_passes (by simp) (fun _ _ _ => rfl) (fun _ _ _ => rfl) ?_
      refine .bind (.silent (Q := fun _ xs => xs = []) fun _ => rfl) ?_
      rintro body _ rfl
      have hb : Ensures (record w c n body i) Passes := (ih body i).imp fun _ _ => passes_of_noted
      cases c.tracesRules with
      | some hook => exact hb.traced hook
      | none => exact hb
    | log _ body name hook =>
      exact noted_of_passes (by simp) (fun _ _ _ => rfl) (fun _ _ _ => rfl)
        (Ensures.logged ((ih body i).imp fun _ _ => passes_of_noted))

/-- A parse that returns has made one execution of its parser from its start.  The outcome has a
cut exactly when a cut shows in that execution; and wherever a choice was run in it and a branch
failed with a cut showing, no later branch was run, and the choice failed with a cut where it
began. -/
theorem parse_hasCut_iff_showsCut {w : World} {limit : Nat} {p : Parser} {t : Text} {i : Int}
    {hook : Option HookId} {config : Option Config} {s s' : State} {o : Outcome}
    (h : parse w limit p t i hook config s = (.value o,s')) :
    ∃ x : Execution,
      (record w ⟨t,hook.or s.ambientHook,config.or s.ambientConfig⟩ limit p i).run (s.setDepth 0) =
        (.value (o,[x]),s') ∧
      x.parser = p ∧ x.start = i ∧ x.outcome = o ∧ (o.hasCut = true ↔ x.ShowsCut) ∧
      ∀ y, x.Within y → ∀ branches, y.parser = .choice branches →
        y.inner.map Execution.parser <+: branches ∧ (∀ z ∈ y.inner, z.start = y.start) ∧
        ∀ earlier z later, y.inner = earlier ++ z :: later → z.outcome.isSuccess = false →
          z.ShowsCut → later = [] ∧ y.outcome = .failure y.start y.parser true := by
  have hr : run w ⟨t,hook.or s.ambientHook,config.or s.ambientConfig⟩ limit p i (s.setDepth 0) =
      (.value o,s') := h
  rw [← forget_record] at hr
  obtain ⟨⟨o',xs⟩,hx,rfl⟩ := Run.map_eq_value_iff.mp hr
  obtain ⟨x,rfl,hp,hi,ho,hl⟩ := ensures_record w _ limit p i _ _ _ _ hx
  refine ⟨x,hx,hp,hi,ho,ho ▸ hasCut_iff_showsCut hl,?_⟩
  intro y hy branches hb
  cases hl.within hy with
  | mk hly hin =>
    obtain ⟨hf,hp,hs⟩ := hly.choice branches hb
    refine ⟨hf,hp,fun earlier z later he hz hzc => hs earlier z later he hz ?_⟩
    exact (hasCut_iff_showsCut (hin z (by simp [he]))).mpr hzc

/-- An opening bracket on the first branch forbids the second one. -/
theorem hasCut_of_unclosed_bracket :
    let opened : Parser := .seq (.named "list")
      [.cut (.word (.named "open") "[".toList),.word (.named "close") "]".toList]
    let p : Parser := .choice [opened,.word (.named "other") "[x".toList]
    ∃ s', parse (Samples.world none) 9 p "[x".toList 0 none none {} = (.value (.failure 0 p true),s') ∧
      ∃ x : Execution,
        (record (Samples.world none) ⟨"[x".toList,none,none⟩ 9 p 0).run {} =
          (.value (.failure 0 p true,[x]),s') ∧ x.ShowsCut := by
  intro opened p
  obtain ⟨s',h⟩ : ∃ s', parse (Samples.world none) 9 p "[x".toList 0 none none {} =
      (.value (.failure 0 p true),s') := ⟨_,rfl⟩
  obtain ⟨x,hx,-,-,-,hc,-⟩ := parse_hasCut_iff_showsCut h
  exact ⟨s',h,x,hx,hc.mp rfl⟩

end Parsing
end Peg
