import Mathlib.Data.List.Forall2
import Peg.Proofs.Loops

/-! Two parsers in lockstep.
Parsers that differ only in what stands below their nodes are run over texts in which positions
correspond.  A relation between computations of two kinds that composing keeps is kept by every
loop.  Main statement: it is kept by running nodes that match. -/
namespace Peg

/-- Two results side by side: the same fault, or values that are related. -/
inductive Results {α β : Type} (Q : α → β → Prop) : Except Fault α → Except Fault β → Prop
  | ok {a : α} {b : β} : Q a b → Results Q (.ok a) (.ok b)
  | error (fault : Fault) : Results Q (.error fault) (.error fault)

theorem Results.refl {α : Type} {Q : α → α → Prop} {x : Except Fault α}
    (h : ∀ a, x = .ok a → Q a a) : Results Q x x := by
  cases x with
  | ok a => exact .ok (h a rfl)
  | error fault => exact .error fault

theorem Results.flip {α β : Type} {Q : α → β → Prop} {x : Except Fault α} {y : Except Fault β}
    (h : Results Q x y) : Results (fun b a => Q a b) y x := by
  cases h with
  | ok h => exact .ok h
  | error fault => exact .error fault

/-- Two answers side by side: values that are related, the same fault, or none. -/
inductive Answer.Like {α β : Type} (Q : α → β → Prop) : Answer α → Answer β → Prop
  | value {a : α} {b : β} : Q a b → Like Q (.value a) (.value b)
  | raised (fault : Fault) : Like Q (.raised fault) (.raised fault)
  | exhausted : Like Q .exhausted .exhausted

namespace Answer

variable {α β γ : Type} {a : Answer α} {b : Answer β}

theorem Like.self {Q : α → α → Prop} (h : ∀ a, Q a a) (a : Answer α) : a.Like Q a := by
  cases a with
  | value a => exact .value (h a)
  | raised fault => exact .raised fault
  | exhausted => exact .exhausted

theorem Like.imp {P Q : α → β → Prop} (h : a.Like P b) (hPQ : ∀ x y, P x y → Q x y) : a.Like Q b := by
  cases h with
  | value hab => exact .value (hPQ _ _ hab)
  | raised fault => exact .raised fault
  | exhausted => exact .exhausted

theorem Like.trans {P : α → β → Prop} {Q : β → γ → Prop} {R : α → γ → Prop} {c : Answer γ}
    (h : a.Like P b) (h' : b.Like Q c) (hR : ∀ x y z, P x y → Q y z → R x z) : a.Like R c := by
  cases h with
  | value hab => cases h' with | value hbc => exact .value (hR _ _ _ hab hbc)
  | raised fault =>
    cases h'
    exact .raised fault
  | exhausted =>
    cases h'
    exact .exhausted

theorem eq_of_like {b : Answer α} (h : a.Like (· = ·) b) : b = a := by
  cases h with
  | value h => rw [h]
  | raised | exhausted => rfl

end Answer

/-- Outcomes with the same value or with related causes, and with the same cut, at positions that
correspond. -/
inductive Outcome.Like (I : Int → Int → Prop) (C : Parser → Parser → Prop) :
    Outcome → Outcome → Prop
  | success {v : Value} {j j' : Int} {cut : Bool} :
    I j j' → Like I C (.success v j cut) (.success v j' cut)
  | failure {j j' : Int} {cause cause' : Parser} {cut : Bool} :
    I j j' → C cause cause' → Like I C (.failure j cause cut) (.failure j' cause' cut)

theorem Outcome.Like.afterCut {I : Int → Int → Prop} {C : Parser → Parser → Prop} {o o' : Outcome}
    (h : o.Like I C o') (seen : Bool) : (o.afterCut seen).Like I C (o'.afterCut seen) := by
  cases h with
  | success hj => exact .success hj
  | failure hj hc => exact .failure hj hc

/-- Tallies that differ only in positions that correspond. -/
inductive Tally.Like (I : Int → Int → Prop) : Tally → Tally → Prop
  | mk {values : List Value} {count : Nat} {cut : Bool} {stop stop' : Int} :
    I stop stop' → Like I ⟨values,count,cut,stop⟩ ⟨values,count,cut,stop'⟩

/-- Positions that correspond in two texts: they are told apart in the same way, the same stands
between them, and as much is left after them. -/
structure Text.Places (t t' : Text) (I : Int → Int → Prop) : Prop where
  eq_iff {i i' j j' : Int} : I i i' → I j j' → (i = j ↔ i' = j')
  slice {i i' j j' : Int} : I i i' → I j j' → t.slice i j = t'.slice i' j'
  left {i i' : Int} : I i i' → (t.length - i).toNat = (t'.length - i').toNat

theorem Text.places_self (t : Text) : t.Places t (· = ·) where
  eq_iff h h' := by rw [h,h']
  slice h h' := by rw [h,h']
  left h := by rw [h]

namespace Parser

/-- The same node over parsers that are related, also in what a flat map may go on with. -/
inductive Matches (S : Parser → Parser → Prop) : Parser → Parser → Prop
  | terminal {id : Ident} {s : Terminal} : Matches S (.terminal id s) (.terminal id s)
  | seq {id : Ident} {ps qs : List Parser} : List.Forall₂ S ps qs → Matches S (.seq id ps) (.seq id qs)
  | choice {ps qs : List Parser} : List.Forall₂ S ps qs → Matches S (.choice ps) (.choice qs)
  | rep {id : Ident} {p q p' q' : Parser} {least : Quantity} {most : Option Quantity} :
    S p p' → S q q' → Matches S (.rep id p least most q) (.rep id p' least most q')
  | opt {p q : Parser} : S p q → Matches S (.opt p) (.opt q)
  | not {p q : Parser} : S p q → Matches S (.not p) (.not q)
  | cut {p q : Parser} : S p q → Matches S (.cut p) (.cut q)
  | map {id : Ident} {p q : Parser} {f : Value → Except Fault Value} {name : Text} :
    S p q → Matches S (.map id p f name) (.map id q f name)
  | flatMap {id : Ident} {p q : Parser} {next next' : Value → Except Fault Parser} {name : Text} :
    S p q → (∀ v, Results S (next v) (next' v)) →
      Matches S (.flatMap id p next name) (.flatMap id q next' name)
  | filter {id : Ident} {p q : Parser} {test : Value → Except Fault Bool} {name : Text} :
    S p q → Matches S (.filter id p test name) (.filter id q test name)
  | capture {p q : Parser} : S p q → Matches S (.capture p) (.capture q)
  | rule {r : RuleId} {name : Text} : Matches S (.rule r name) (.rule r name)
  | log {id : Ident} {p q : Parser} {name : Text} {hook : Option HookId} :
    S p q → Matches S (.log id p name hook) (.log id q name hook)

end Parser

namespace Parsing

variable {m m' : Type → Type} [Monad m] [Abrupt m] [Monad m'] [Abrupt m']

/-- A relation between computations of two kinds, over a relation between what they give, that
composing keeps. -/
structure Lockstep (R : (α β : Type) → (α → β → Prop) → m α → m' β → Prop) : Prop where
  done {α β : Type} {Q : α → β → Prop} {a : α} {b : β} : Q a b → R α β Q (pure a) (pure b)
  bind {α β γ δ : Type} {P : α → β → Prop} {Q : γ → δ → Prop} {x : m α} {y : m' β} {f : α → m γ}
    {g : β → m' δ} : R α β P x y → (∀ a b, P a b → R γ δ Q (f a) (g b)) →
      R γ δ Q (x >>= f) (y >>= g)
  raise {α β : Type} {Q : α → β → Prop} (fault : Fault) :
    R α β Q (Abrupt.raise fault) (Abrupt.raise fault)
  exhaust {α β : Type} {Q : α → β → Prop} : R α β Q Abrupt.exhaust Abrupt.exhaust

namespace Lockstep

variable {R : (α β : Type) → (α → β → Prop) → m α → m' β → Prop} {S C : Parser → Parser → Prop}
  {I : Int → Int → Prop} {step : Parser → Int → m Outcome} {step' : Parser → Int → m' Outcome}

/-- Composing after computations that give the same. -/
theorem same (hR : Lockstep R) {α γ δ : Type} {Q : γ → δ → Prop} {x : m α} {y : m' α}
    {f : α → m γ} {g : α → m' δ} (hx : R α α (· = ·) x y) (hf : ∀ a, R γ δ Q (f a) (g a)) :
    R γ δ Q (x >>= f) (y >>= g) := by
  apply hR.bind hx
  rintro a _ rfl
  exact hf a

/-- Giving the same is kept by composing. -/
theorem congruence (hR : Lockstep R) :
    Congruence fun (α : Type) (x : m α) (y : m' α) => R α α (· = ·) x y where
  done _ := hR.done rfl
  bind hx hf := hR.same hx hf
  raise fault := hR.raise fault
  exhaust := hR.exhaust

/-- Composing where a failure is handed on as a failure. -/
theorem bindOutcome (hR : Lockstep R) {x : m Outcome} {y : m' Outcome} {f : Outcome → m Outcome}
    {g : Outcome → m' Outcome} (hx : R _ _ (Outcome.Like I C) x y)
    (hfailure : ∀ j cause cut, f (.failure j cause cut) = pure (.failure j cause cut) ∧
      g (.failure j cause cut) = pure (.failure j cause cut))
    (hsuccess : ∀ v j j' cut, I j j' →
      R _ _ (Outcome.Like I C) (f (.success v j cut)) (g (.success v j' cut))) :
    R _ _ (Outcome.Like I C) (x >>= f) (y >>= g) := by
  refine hR.bind hx fun o o' ho => ?_
  cases ho with
  | success hj => exact hsuccess _ _ _ _ hj
  | failure hj hc =>
    rw [(hfailure _ _ _).1,(hfailure _ _ _).2]
    exact hR.done (.failure hj hc)

theorem sequence (hR : Lockstep R) {ps qs : List Parser} (h : List.Forall₂ S ps qs)
    (hstep : ∀ x y, S x y → ∀ j j', I j j' → R _ _ (Outcome.Like I C) (step x j) (step' y j'))
    (units : List Bool) (values : List Value) (cut : Bool) {i i' : Int} (hi : I i i') :
    R _ _ (Outcome.Like I C) (Parsing.sequence step (ps.zip units) values cut i)
      (Parsing.sequence step' (qs.zip units) values cut i') := by
  induction h generalizing units values cut i i' with
  | nil => exact hR.done (.success hi)
  | cons hxy _ ih =>
    cases units with
    | nil => exact hR.done (.success hi)
    | cons unit units =>
      refine hR.bind (hstep _ _ hxy _ _ hi) fun o o' ho => ?_
      cases ho with
      | success hj => exact ih units _ _ hj
      | failure hj hc => exact hR.done (.failure hj hc)

theorem choice (hR : Lockstep R) {ps qs : List Parser} (h : List.Forall₂ S ps qs)
    (hstep : ∀ x y, S x y → ∀ j j', I j j' → R _ _ (Outcome.Like I C) (step x j) (step' y j'))
    {whole whole' : Parser} (hwhole : C whole whole') {i i' : Int} (hi : I i i') :
    R _ _ (Outcome.Like I C) (Parsing.choice step whole i ps)
      (Parsing.choice step' whole' i' qs) := by
  induction h with
  | nil => exact hR.done (.failure hi hwhole)
  | cons hxy _ ih =>
    refine hR.bind (hstep _ _ hxy _ _ hi) fun o o' ho => ?_
    cases ho with
    | success hj => exact hR.done (.success hj)
    | @failure _ _ _ _ cut hj hc =>
      cases cut with
      | true => exact hR.done (.failure hi hwhole)
      | false => exact ih

variable {element separator : Int → m Outcome} {element' separator' : Int → m' Outcome}

theorem gap (hR : Lockstep R)
    (hs : ∀ j j', I j j' → R _ _ (Outcome.Like I C) (separator j) (separator' j')) {t t' : Tally}
    (ht : t.Like I t') :
    R _ _ (Outcome.Like I C) (Parsing.gap separator t) (Parsing.gap separator' t') := by
  obtain @⟨values,count,cut,stop,stop',hstop⟩ := ht
  unfold Parsing.gap
  by_cases hcount : count = 0
  · rw [if_pos hcount,if_pos hcount]
    exact hR.done (.success hstop)
  · rw [if_neg hcount,if_neg hcount]
    exact hs stop stop' hstop

theorem rounds (hR : Lockstep R)
    (heq : ∀ {i i' j j'}, I i i' → I j j' → (i = j ↔ i' = j'))
    (he : ∀ j j', I j j' → R _ _ (Outcome.Like I C) (element j) (element' j'))
    (hs : ∀ j j', I j j' → R _ _ (Outcome.Like I C) (separator j) (separator' j')) (least : Nat)
    (most : Option Nat) (fuel : Nat) {t t' : Tally} (ht : t.Like I t') :
    R _ _ (Tally.Like I) (Parsing.rounds element separator least most fuel t)
      (Parsing.rounds element' separator' least most fuel t') := by
  induction fuel generalizing t t' with
  | zero =>
    obtain @⟨values,count,cut,stop,stop',hstop⟩ := ht
    unfold Parsing.rounds
    by_cases hm : most.any (· ≤ count) = true
    · rw [if_pos hm,if_pos hm]
      exact hR.done ⟨hstop⟩
    · rw [if_neg hm,if_neg hm]
      exact hR.exhaust
  | succ fuel ih =>
    have hgap := hR.gap hs ht
    obtain @⟨values,count,cut,stop,stop',hstop⟩ := ht
    unfold Parsing.rounds
    by_cases hm : most.any (· ≤ count) = true
    · rw [if_pos hm,if_pos hm]
      exact hR.done ⟨hstop⟩
    · rw [if_neg hm,if_neg hm]
      refine hR.bind hgap fun o o' ho => ?_
      cases ho with
      | failure => exact hR.done ⟨hstop⟩
      | success hstart =>
        refine hR.bind (he _ _ hstart) fun o o' ho => ?_
        cases ho with
        | failure => exact hR.done ⟨hstop⟩
        | @success v j j' d hj =>
          dsimp only
          by_cases hstay : j = stop ∧ least ≤ count + 1
          · rw [if_pos hstay,if_pos ⟨(heq hj hstop).mp hstay.1,hstay.2⟩]
            exact hR.done ⟨hj⟩
          · rw [if_neg hstay,if_neg fun h => hstay ⟨(heq hj hstop).mpr h.1,h.2⟩]
            exact ih ⟨hj⟩

theorem repetition (hR : Lockstep R) {t t' : Text} (hI : t.Places t' I)
    (he : ∀ j j', I j j' → R _ _ (Outcome.Like I C) (element j) (element' j'))
    (hs : ∀ j j', I j j' → R _ _ (Outcome.Like I C) (separator j) (separator' j')) (least : Nat)
    (most : Option Nat) {whole whole' : Parser} (hwhole : C whole whole') {i i' : Int} (hi : I i i') :
    R _ _ (Outcome.Like I C) (Parsing.repetition element separator least most whole t i)
      (Parsing.repetition element' separator' least most whole' t' i') := by
  have hlimit : roundLimit t least i = roundLimit t' least i' := by
    rw [roundLimit,roundLimit,hI.left hi]
  unfold Parsing.repetition
  rw [hlimit]
  refine hR.bind (hR.rounds hI.eq_iff he hs least most _ ⟨hi⟩) fun tally tally' ht => ?_
  obtain @⟨values,count,cut,stop,stop',hstop⟩ := ht
  by_cases hcount : count < least
  · rw [if_pos hcount,if_pos hcount]
    exact hR.done (.failure hi hwhole)
  · rw [if_neg hcount,if_neg hcount]
    exact hR.done (.success hstop)

/-- Running nodes that match is kept when running what is related below them is. -/
theorem node (hR : Lockstep R) {t t' : Text} (hI : t.Places t' I) {e : Surroundings m}
    {e' : Surroundings m'} {p q : Parser} (h : p.Matches S q) (hpq : C p q) {i i' : Int}
    (hi : I i i')
    (hscan : ∀ id s, p = .terminal id s → Results (Option.Rel I) (s.scan t i) (s.scan t' i'))
    (hstep : ∀ x y, S x y → ∀ j j', I j j' → R _ _ (Outcome.Like I C) (step x j) (step' y j'))
    (hs : ∀ id ps qs, p = .seq id ps → List.Forall₂ S ps qs →
      R _ _ (· = ·) (e.shape id ps) (e'.shape id qs))
    (hr : ∀ r name, p = .rule r name → R _ _ (Outcome.Like I C)
      (e.rule r name i fun x => step x i) (e'.rule r name i' fun y => step' y i'))
    (hl : ∀ id x y name hook, p = .log id x name hook → S x y → R _ _ (Outcome.Like I C)
      (e.log hook name i (step x i)) (e'.log hook name i' (step' y i'))) :
    R _ _ (Outcome.Like I C) (Parsing.node e t step p i) (Parsing.node e' t' step' q i') := by
  cases h with
  | @terminal id s =>
    have hscan := hscan id s rfl
    simp only [Parsing.node]
    generalize s.scan t i = a at hscan ⊢
    generalize s.scan t' i' = b at hscan ⊢
    cases hscan with
    | error fault => exact hR.raise fault
    | ok h =>
      cases h with
      | none => exact hR.done (.failure hi hpq)
      | some hj => exact hR.done (.success hj)
  | seq h => exact hR.same (hs _ _ _ rfl h) fun units => hR.sequence h hstep units _ _ hi
  | choice h => exact hR.choice h hstep hpq hi
  | rep hp hq => exact hR.repetition hI (hstep _ _ hp) (hstep _ _ hq) _ _ hpq hi
  | opt h =>
    refine hR.bind (hstep _ _ h _ _ hi) fun o o' ho => ?_
    cases ho with
    | success hj => exact hR.done (.success hj)
    | failure => exact hR.done (.success hi)
  | not h =>
    refine hR.bind (hstep _ _ h _ _ hi) fun o o' ho => ?_
    cases ho with
    | success => exact hR.done (.failure hi hpq)
    | failure => exact hR.done (.success hi)
  | cut h =>
    refine hR.bindOutcome (hstep _ _ h _ _ hi) (fun _ _ _ => ⟨rfl,rfl⟩) fun v j j' cut hj => ?_
    exact hR.done (.success hj)
  | @map id x y f name h =>
    refine hR.bindOutcome (hstep _ _ h _ _ hi) (fun _ _ _ => ⟨rfl,rfl⟩) fun v j j' cut hj => ?_
    dsimp only
    cases f v with
    | ok u => exact hR.done (.success hj)
    | error fault => exact hR.raise fault
  | @flatMap id x y next next' name h hn =>
    refine hR.bindOutcome (hstep _ _ h _ _ hi) (fun _ _ _ => ⟨rfl,rfl⟩) fun v j j' cut hj => ?_
    have hv := hn v
    dsimp only
    generalize next v = a at hv ⊢
    generalize next' v = b at hv ⊢
    cases hv with
    | ok hxy => exact hR.bind (hstep _ _ hxy _ _ hj) fun o o' ho => hR.done (ho.afterCut cut)
    | error fault => exact hR.raise fault
  | @filter id x y test name h =>
    refine hR.bindOutcome (hstep _ _ h _ _ hi) (fun _ _ _ => ⟨rfl,rfl⟩) fun v j j' cut hj => ?_
    dsimp only
    rcases test v with fault | _ | _
    · exact hR.raise fault
    · exact hR.done (.failure hi hpq)
    · exact hR.done (.success hj)
  | capture h =>
    refine hR.bindOutcome (hstep _ _ h _ _ hi) (fun _ _ _ => ⟨rfl,rfl⟩) fun v j j' cut hj => ?_
    dsimp only
    rw [hI.slice hi hj]
    exact hR.done (.success hj)
  | rule => exact hr _ _ rfl
  | log h => exact hl _ _ _ _ _ rfl h

end Lockstep
end Parsing
end Peg
