import Mathlib.Logic.Relation
import Peg.Proofs.Kinds
import Peg.Proofs.Mirrors
import Peg.Proofs.Tracing
import Peg.Proofs.Uncut

/-! Cuts that only prune.
A grammar is run beside the same grammar without its cuts, with the same things remembered but for
cuts.  Main statement: where no cut lies below a node that may succeed although what lies below it
failed, whatever succeeds and whatever fails without a cut does the same without cuts. -/
namespace Peg

open Relation

namespace World

/-- One step down: to a node right below, to a body that a rule may get, or to a parser that a flat
map may go on with. -/
inductive Leads (w : World) : Parser → Parser → Prop
  | child {p q : Parser} : q ∈ p.children → Leads w p q
  | body {r : RuleId} {name : Text} {n : Nat} {q : Parser} :
    w.supply r n = .ok q → Leads w (.rule r name) q
  | next {id : Ident} {body : Parser} {next : Value → Except Fault Parser} {name : Text} {v : Value}
    {q : Parser} : next v = .ok q → Leads w (.flatMap id body next name) q

/-- No cut lies below an option, a negation or a repetition. -/
def Pruning (w : World) (p : Parser) : Prop :=
  ∀ x, ReflTransGen w.Leads p x → x.tolerates = true → ∀ body, ¬ TransGen w.Leads x (.cut body)

/-- Cuts only prune, and there is none at all unless there may be. -/
structure Fit (w : World) (cuts : Prop) (p : Parser) : Prop where
  pruning : w.Pruning p
  cuts : ∀ body, ReflTransGen w.Leads p (.cut body) → cuts

variable {w : World} {cuts : Prop} {p q : Parser}

theorem Fit.lead (h : w.Fit cuts p) (hq : w.Leads p q) : w.Fit cuts q where
  pruning x hx := h.pruning x (.head hq hx)
  cuts body hb := h.cuts body (.head hq hb)

/-- Below a node that may succeed although what lies below it failed there are no cuts. -/
theorem Fit.below (h : w.Fit cuts p) (ht : p.tolerates = true) (hq : w.Leads p q) :
    w.Fit False q where
  pruning := (h.lead hq).pruning
  cuts body hb := h.pruning p .refl ht body (.head' hq hb)

/-- What can be reached is not left, nor is what lies below options, negations and repetitions, and
among that is no cut. -/
theorem pruning_of_closed (reached below : Parser → Prop) (hp : reached p)
    (hreached : ∀ x y, reached x → w.Leads x y → reached y ∧ (x.tolerates = true → below y))
    (hbelow : ∀ x y, below x → w.Leads x y → below y) (hcut : ∀ body, ¬ below (.cut body)) :
    w.Pruning p := by
  have hall : ∀ x, ReflTransGen w.Leads p x → reached x := by
    intro x hx
    induction hx with
    | refl => exact hp
    | tail _ hl ih => exact (hreached _ _ ih hl).1
  have hlow : ∀ x, reached x → x.tolerates = true → ∀ y, TransGen w.Leads x y → below y := by
    intro x hx ht y hy
    induction hy with
    | single hl => exact (hreached _ _ hx hl).2 ht
    | tail _ hl ih => exact hbelow _ _ ih hl
  exact fun x hx ht body hb => hcut body (hlow x (hall x hx) ht _ hb)

end World

/-- What is known of a rule, without the cuts in its body. -/
def RuleCell.uncut (c : RuleCell) : RuleCell := { c with body := c.body.map Parser.uncut }

/-- The same is remembered but for cuts, and every body came from its supplier. -/
structure Memory.Uncut (w : World) (m m' : Memory) : Prop where
  cell : ∀ r, m'.cell r = (m.cell r).uncut
  shape : m'.shape = m.shape
  resolving : m'.resolving = m.resolving
  supplied : ∀ r p, (m.cell r).body = some p → ∃ n, w.supply r n = .ok p

/-- The same is remembered but for cuts, and hooks do the same about nodes that end alike but for
cuts. -/
structure State.Uncut (w : World) (s s' : State) : Prop where
  memory : s.memory.Uncut w s'.memory
  tracing : w.Indifferent (· = ·) (Outcome.Uncut True) s.tracing s'.tracing

theorem Memory.uncut_new (w : World) : ({} : Memory).Uncut w {} where
  cell _ := rfl
  shape := rfl
  resolving := rfl
  supplied _ _ h := nomatch h

namespace Memory.Uncut

variable {w : World} {m m' : Memory} {r : RuleId}

theorem setResolving (h : m.Uncut w m') (fs : List Frame) :
    ({ m with resolving := fs } : Memory).Uncut w { m' with resolving := fs } :=
  ⟨h.cell,h.shape,rfl,h.supplied⟩

theorem setCell (h : m.Uncut w m') {c : RuleCell}
    (hc : ∀ p, c.body = some p → ∃ n, w.supply r n = .ok p) :
    (m.setCell r c).Uncut w (m'.setCell r c.uncut) where
  cell s := by
    rw [cell_setCell,cell_setCell,h.cell]
    split <;> rfl
  shape := h.shape
  resolving := h.resolving
  supplied s p hp := by
    rw [cell_setCell] at hp
    split at hp
    · rename_i hsr
      exact hsr ▸ hc p hp
    · exact h.supplied s p hp

theorem setShape (h : m.Uncut w m') (id : Ident) (us : List Bool) :
    (m.setShape id us).Uncut w (m'.setShape id us) where
  cell := h.cell
  shape := by
    rw [Memory.setShape,Memory.setShape,h.shape]
  resolving := h.resolving
  supplied := h.supplied

theorem settle (h : m.Uncut w m') (u : Bool) : (m.settle r u).Uncut w (m'.settle r u) := by
  unfold Memory.settle
  rw [h.resolving]
  cases m.resolving with
  | nil => exact h
  | cons f fs =>
    dsimp only
    split
    · exact h.setResolving _
    · have hc : ({ m'.cell r with unit := some u } : RuleCell) =
          ({ m.cell r with unit := some u } : RuleCell).uncut := by rw [h.cell]; rfl
      rw [hc]
      exact (h.setCell (c := { m.cell r with unit := some u }) (h.supplied r)).setResolving fs

end Memory.Uncut

theorem State.Uncut.mapMemory {w : World} {s s' : State} (h : s.Uncut w s') {f g : Memory → Memory}
    (hf : (f s.memory).Uncut w (g s'.memory)) : (s.mapMemory f).Uncut w (s'.mapMemory g) :=
  ⟨hf,h.tracing⟩

namespace Run

/-- Two computations side by side: what the first one gives is lost, or the second one gives
something that is related to it. -/
def Beside (w : World) (α β : Type) (lost : α → Prop) (Q : α → β → Prop) (x : Run α) (y : Run β) :
    Prop :=
  ∀ s s', s.Uncut w s' → ∀ a u, x s = (.value a,u) →
    lost a ∨ ∃ b u', y s' = (.value b,u') ∧ Q a b ∧ u.Uncut w u'

theorem beside_simulation (w : World) : Parsing.Simulation (Beside w) where
  done hQ s s' hs a u h := by
    cases h
    exact .inr ⟨_,s',rfl,hQ,hs⟩
  lost hl s s' hs a u h := by
    cases h
    exact .inl hl
  imp h hl hQ s s' hs a u hx := by
    rcases h s s' hs a u hx with ha | ⟨b,u',hy,hab,hu⟩
    · exact .inl (hl a ha)
    · exact .inr ⟨b,u',hy,hQ a b hab,hu⟩
  raise s s' hs a u h := nomatch h
  exhaust s s' hs a u h := nomatch h
  bind hx hl hf s s' hs c v h := by
    obtain ⟨a,u,ha,hc⟩ := Run.bind_eq_value_iff.mp h
    rcases hx s s' hs a u ha with hla | ⟨b,u',hb,hQ,hu⟩
    · obtain ⟨c',hfa,hc'⟩ := hl a hla
      rw [hfa] at hc
      cases hc
      exact .inl hc'
    · rcases hf a b hQ u u' hu c v hc with hlc | ⟨d,v',hd,hQ',hv⟩
      · exact .inl hlc
      · exact .inr ⟨d,v',(Run.bind_of_value hb).trans hd,hQ',hv⟩

theorem beside_get {w : World} {α : Type} {f : State → α} (h : ∀ s s', s.Uncut w s' → f s' = f s) :
    Beside w _ _ (fun _ => False) (· = ·) (get f) (get f) := by
  rintro s s' hs _ _ ⟨⟩
  exact .inr ⟨f s',s',rfl,(h s s' hs).symm,hs⟩

theorem beside_modify {w : World} {f g : State → State}
    (h : ∀ s s', s.Uncut w s' → (f s).Uncut w (g s')) :
    Beside w _ _ (fun _ => False) (· = ·) (modify f) (modify g) := by
  rintro s s' hs _ _ ⟨⟩
  exact .inr ⟨(),g s',rfl,rfl,h s s' hs⟩

end Run

namespace Rules

open Run Parsing

variable {w : World}

theorem beside_body (r : RuleId) :
    Beside w _ _ (fun _ => False) (fun p p' => p' = p.uncut ∧ ∃ n, w.supply r n = .ok p)
      (body w r) (body w.uncut r) := by
  intro s s' hs p u hx
  unfold body at hx ⊢
  have hcell := hs.memory.cell r
  cases hb : (s.memory.cell r).body with
  | some q =>
    have hb' : (s'.memory.cell r).body = some q.uncut := by rw [hcell,RuleCell.uncut,hb]; rfl
    simp only [hb] at hx
    cases hx
    simp only [hb']
    exact .inr ⟨_,s',rfl,⟨rfl,hs.memory.supplied r p hb⟩,hs⟩
  | none =>
    have hb' : (s'.memory.cell r).body = none := by rw [hcell,RuleCell.uncut,hb]; rfl
    have hcalls : (s'.memory.cell r).calls = (s.memory.cell r).calls := by rw [hcell]; rfl
    have hunit : (s'.memory.cell r).unit = (s.memory.cell r).unit := by rw [hcell]; rfl
    simp only [hb] at hx
    cases hq : w.supply r (s.memory.cell r).calls with
    | error fault => simp [hq] at hx
    | ok q =>
      have hq' : w.uncut.supply r (s.memory.cell r).calls = .ok q.uncut := by
        change Parser.uncutNext (w.supply r _) = _
        rw [hq]
        rfl
      simp only [hq] at hx
      cases hx
      simp only [hb',hcalls,hq',hunit]
      refine .inr ⟨_,_,rfl,⟨rfl,_,hq⟩,hs.mapMemory (hs.memory.setCell ?_)⟩
      rintro _ ⟨⟩
      exact ⟨_,hq⟩

variable {unit unit' : Parser → Run Bool}

theorem beside_eachUnit (ps : List Parser)
    (h : ∀ p ∈ ps, Beside w _ _ (fun _ => False) (· = ·) (unit p) (unit' p.uncut)) :
    Beside w _ _ (fun _ => False) (· = ·) (eachUnit unit ps) (eachUnit unit' (ps.map Parser.uncut)) := by
  have hR := beside_simulation w
  induction ps with
  | nil => exact hR.done rfl
  | cons p ps ih =>
    refine hR.same (h p (by simp)) fun u => ?_
    exact hR.same (ih fun q hq => h q (by simp [hq])) fun us => hR.done rfl

theorem beside_allUnit (ps : List Parser)
    (h : ∀ p ∈ ps, Beside w _ _ (fun _ => False) (· = ·) (unit p) (unit' p.uncut)) :
    Beside w _ _ (fun _ => False) (· = ·) (allUnit unit ps) (allUnit unit' (ps.map Parser.uncut)) := by
  have hR := beside_simulation w
  induction ps with
  | nil => exact hR.done rfl
  | cons p ps ih =>
    refine hR.same (h p (by simp)) fun u => ?_
    cases u with
    | true => exact ih fun q hq => h q (by simp [hq])
    | false => exact hR.done rfl

theorem beside_shape (id : Ident) (ps : List Parser)
    (h : ∀ p ∈ ps, Beside w _ _ (fun _ => False) (· = ·) (unit p) (unit' p.uncut)) :
    Beside w _ _ (fun _ => False) (· = ·) (shape unit id ps)
      (shape unit' id (ps.map Parser.uncut)) := by
  have hR := beside_simulation w
  refine hR.same (beside_get fun s s' hs => by rw [hs.memory.shape]) fun known => ?_
  cases known with
  | some us => exact hR.done rfl
  | none =>
    refine hR.same (beside_eachUnit ps h) fun us => ?_
    refine hR.same (beside_get fun s s' hs => hs.memory.resolving) fun frames => ?_
    split
    · exact hR.same (beside_modify fun s s' hs => hs.mapMemory (hs.memory.setShape id us))
        fun _ => hR.done rfl
    · exact hR.done rfl

theorem beside_resolve (r : RuleId)
    (h : ∀ p, Beside w _ _ (fun _ => False) (· = ·) (unit p) (unit' p.uncut)) :
    Beside w _ _ (fun _ => False) (· = ·) (resolve w unit r) (resolve w.uncut unit' r) := by
  intro s s' hs b v hx
  unfold resolve at hx ⊢
  have hunit : (s'.memory.cell r).unit = (s.memory.cell r).unit := by rw [hs.memory.cell r]; rfl
  rw [hunit,hs.memory.resolving]
  cases hu : (s.memory.cell r).unit with
  | some u =>
    simp only [hu] at hx ⊢
    cases hx
    exact .inr ⟨_,s',rfl,rfl,hs⟩
  | none =>
    simp only [hu] at hx ⊢
    cases hp : Memory.placeOf r s.memory.resolving with
    | some low =>
      simp only [hp] at hx ⊢
      cases hx
      refine .inr ⟨_,_,rfl,rfl,hs.mapMemory ?_⟩
      rw [hs.memory.resolving]
      exact hs.memory.setResolving _
    | none =>
      simp only [hp] at hx ⊢
      have hb : Beside w _ _ (fun _ => False) (· = ·) (body w r >>= unit)
          (body w.uncut r >>= unit') := by
        refine (beside_simulation w).bind (beside_body r) (fun _ h => h.elim) ?_
        rintro p _ ⟨rfl,-⟩
        exact h p
      have henter : (s.mapMemory (·.enter r)).Uncut w (s'.mapMemory (·.enter r)) := by
        refine hs.mapMemory ?_
        rw [Memory.enter,Memory.enter,hs.memory.resolving]
        exact hs.memory.setResolving _
      rcases hx' : (body w r >>= unit) (s.mapMemory (·.enter r)) with ⟨u | fault | _,t⟩
      · rw [hx'] at hx
        cases hx
        rcases hb _ _ henter _ _ hx' with hf | ⟨_,t',hy,rfl,ht⟩
        · exact hf.elim
        · rw [hy]
          exact .inr ⟨_,_,rfl,rfl,ht.mapMemory (ht.memory.settle _)⟩
      · rw [hx'] at hx
        cases hx
      · rw [hx'] at hx
        cases hx

/-- Without its cuts a parser is asked about in the same way, not deeper. -/
theorem beside_isUnit {n m : Nat} (hm : n ≤ m) (p : Parser) :
    Beside w _ _ (fun _ => False) (· = ·) (isUnit w n p) (isUnit w.uncut m p.uncut) := by
  have hR := beside_simulation w
  induction n generalizing m p with
  | zero => exact hR.exhaust
  | succ n ih =>
    obtain ⟨m,rfl⟩ := Nat.exists_eq_add_of_le' (Nat.le_trans (Nat.le_add_left 1 n) hm)
    have hnm : n ≤ m := by omega
    rw [isUnit.eq_def]
    cases p with
    | terminal | not | map | flatMap | capture => exact hR.done rfl
    | seq id ps =>
      rw [Parser.uncut,Parser.uncutAll_eq_map]
      exact hR.same (beside_shape id ps fun p _ => ih hnm p) fun us => hR.done rfl
    | choice ps =>
      rw [Parser.uncut,Parser.uncutAll_eq_map]
      exact beside_allUnit ps fun p _ => ih hnm p
    | rep id p | opt p | filter id p | log id p => exact ih hnm p
    | cut p => exact ih (by omega) p
    | rule r name => exact beside_resolve r fun p => ih hnm p

end Rules

namespace Parsing

open Run

variable {w : World} {c : Context} {cuts : Prop}

/-- Nodes side by side may be traced by hooks that do the same about them, whatever their cuts. -/
theorem beside_traced {lost : Outcome → Prop} {x y : Run Outcome}
    (h : Beside w _ _ lost (Outcome.Uncut cuts) x y) {x' y' : Run Outcome} {inner : State → State}
    (ht : ∀ s s', w.Indifferent (· = ·) (Outcome.Uncut True) s.tracing s'.tracing →
      Hooks.TracesBoth (w.Indifferent (· = ·) (Outcome.Uncut True)) (Outcome.Uncut True) x y s (inner s)
        s' (x' s) (y' s')) : Beside w _ _ lost (Outcome.Uncut cuts) x' y' := by
  intro s s' hs o u hx
  have htraces := ht s s' hs.tracing
  rw [hx] at htraces
  cases htraces with
  | hidden hr hr' =>
    rw [hr']
    exact h s s' hs o u hr.symm
  | stopped hr => cases hr
  | @heard v' told _ hm hm' hv ha ha' hsame hum hum' =>
    have ho := Answer.heard_eq_value ha.symm
    have hinner : (inner s).Uncut w v' := ⟨by rw [hm,hm']; exact hs.memory,hv⟩
    rcases h (inner s) v' hinner o (x (inner s)).2 (Prod.ext ho rfl) with hlost | ⟨o',u',hy,hQ,hu⟩
    · exact .inl hlost
    · rw [ho] at ha hsame
      rw [hy] at ha' hum' hsame
      obtain ⟨htold,hw⟩ := hsame (.value (hQ.mono fun _ => trivial)) hu.tracing
      rw [htold,(Answer.heard_eq_value_iff.mp ha.symm).1,Answer.heard_none] at ha'
      refine .inr ⟨o',(y' s').2,Prod.ext ha' rfl,hQ,?_,hw⟩
      rw [← hum,← hum']
      exact hu.memory

/-- A parser beside itself without its cuts, with a nesting at least as deep. -/
theorem beside_run {n m : Nat} (hm : n ≤ m) {p : Parser} (hp : w.Fit cuts p) (i : Int) :
    Beside w _ _ (Outcome.Lost cuts) (Outcome.Uncut cuts) (run w c n p i)
      (run w.uncut c m p.uncut i) := by
  have hR := beside_simulation w
  induction n generalizing m p i cuts with
  | zero => exact hR.exhaust
  | succ n ih =>
    obtain ⟨m,rfl⟩ := Nat.exists_eq_add_of_le' (Nat.le_trans (Nat.le_add_left 1 n) hm)
    have hnm : n ≤ m := by omega
    by_cases hcut : ∃ body, p = .cut body
    · obtain ⟨body,rfl⟩ := hcut
      have hbody : w.Fit cuts body := hp.lead (.child (by simp [Parser.children]))
      have hb := ih (m := m + 1) (by omega) hbody i
      exact hR.cut (hp.cuts body .refl) hb rfl
    by_cases hchoice : ∃ branches, p = .choice branches
    · obtain ⟨branches,rfl⟩ := hchoice
      rw [Parser.uncut,Parser.uncutAll_eq_map]
      refine hR.choice (.choice branches) _ i branches (D := fun _ _ => True) (fun q hq => ?_) ?_
      · exact hR.imp (ih hnm (hp.lead (.child hq)) i) (fun _ h => h) fun _ _ h => ⟨h,trivial⟩
      · exact fun hcuts q qs _ _ _ _ => hR.lost ⟨hcuts,i,_,rfl⟩
    refine hR.node c.text p i (fun body h => hcut ⟨body,h⟩) (fun bs h => hchoice ⟨bs,h⟩) ?_ ?_ ?_ ?_
      ?_ ?_
    · exact fun _ q hq j => ih hnm (hp.lead (.child hq)) j
    · intro ht q hq j
      exact hR.imp (ih hnm (hp.below ht (.child hq)) j) (fun _ h => h) fun _ _ h => h.mono False.elim
    · rintro id body next name v q rfl hq j
      exact ih hnm (hp.lead (.next hq)) j
    · rintro id parts rfl
      exact Rules.beside_shape id parts fun q _ => Rules.beside_isUnit hnm q
    · rintro r name rfl
      refine hR.bind (Rules.beside_body r) (fun _ h => h.elim) ?_
      rintro q _ ⟨rfl,k,hq⟩
      have hb := ih hnm (hp.lead (.body hq)) i
      cases c.tracesRules with
      | some hook => exact beside_traced hb fun s s' hs => hs.traces rfl rfl hook name _ _
      | none => exact hb
    · rintro id body name hook rfl
      have hbody : w.Fit cuts body := hp.lead (.child (by simp [Parser.children]))
      exact beside_traced (ih hnm hbody i) fun s s' hs => hs.traces_logged rfl rfl rfl hook name _ _

/-- Cuts only prune: where the same is remembered but for cuts, and hooks do the same about what ends
alike but for cuts, a parse that succeeds also succeeds without cuts, with the same value at the same
position, and one that fails without a cut fails at the same position. -/
theorem parse_uncut {p : Parser} (hp : w.Pruning p) {limit : Nat} {t : Text} {i : Int}
    {hook : Option HookId} {config : Option Config} {s s' : State}
    (hs : (s.setDepth 0).Uncut w (s'.setDepth 0)) (hhook : s'.ambientHook = s.ambientHook)
    (hconfig : s'.ambientConfig = s.ambientConfig) {o : Outcome}
    (ho : (parse w limit p t i hook config s).1 = .value o) {more : Nat} (hmore : limit ≤ more) :
    (∀ v j cut, o = .success v j cut →
      (parse w.uncut more p.uncut t i hook config s').1 = .value (.success v j false)) ∧
    ∀ j cause, o = .failure j cause false → ∃ cause',
      (parse w.uncut more p.uncut t i hook config s').1 = .value (.failure j cause' false) := by
  have hfit : w.Fit True p := ⟨hp,fun _ _ => trivial⟩
  have hr := beside_run (c := ⟨t,hook.or s.ambientHook,config.or s.ambientConfig⟩) hmore hfit i
    (s.setDepth 0) (s'.setDepth 0) hs o (parse w limit p t i hook config s).2 (Prod.ext ho rfl)
  have hparse : parse w.uncut more p.uncut t i hook config s' =
      run w.uncut ⟨t,hook.or s.ambientHook,config.or s.ambientConfig⟩ more p.uncut i
        (s'.setDepth 0) := by
    rw [← hhook,← hconfig]
    rfl
  rw [hparse]
  rcases hr with ⟨-,j,cause,rfl⟩ | ⟨o',u',hy,hQ,-⟩
  · exact ⟨nofun,nofun⟩
  · rw [hy]
    cases hQ with
    | success => exact ⟨fun v j cut h => by cases h; rfl,nofun⟩
    | failure => exact ⟨nofun,fun j cause h => by cases h; exact ⟨_,rfl⟩⟩

/-- A letter or nothing, or the same in parentheses, where an opening one commits. -/
def grouped : Parser :=
  .choice [.seq (.named "group") parts,.opt (.capture (.word (.named "letter") "x".toList))]
where
  parts : List Parser := [.cut (.word (.named "open") "(".toList),
    .rule (.named "term") "term".toList,.word (.named "close") ")".toList]

theorem pruning_grouped (hook : HookId → Hook) (clock : Nat → Rat) :
    World.Pruning ⟨fun _ _ => .ok grouped,hook,clock⟩ grouped := by
  refine World.pruning_of_closed
    (fun x => x ∈ [grouped,.seq (.named "group") grouped.parts,
      .opt (.capture (.word (.named "letter") "x".toList)),.word (.named "open") "(".toList] ∨
        x ∈ grouped.parts ∨ x ∈ [.capture (.word (.named "letter") "x".toList),
          .word (.named "letter") "x".toList])
    (· ∈ [.capture (.word (.named "letter") "x".toList),.word (.named "letter") "x".toList])
    (by simp) ?_ ?_ (by simp [Parser.word])
  · intro x y hx hl
    simp only [List.mem_cons,List.not_mem_nil,or_false,grouped.parts] at hx
    rcases hx with (rfl | rfl | rfl | rfl) | (rfl | rfl | rfl) | rfl | rfl
    all_goals cases hl
    all_goals simp_all [Parser.children,grouped,grouped.parts,Parser.word,Parser.tolerates]
    grind
  · intro x y hx hl
    simp only [List.mem_cons,List.not_mem_nil,or_false] at hx
    rcases hx with rfl | rfl
    all_goals cases hl
    all_goals simp_all [Parser.children,Parser.word]

theorem parse_grouped_uncut :
    let w : World := ⟨fun _ _ => .ok grouped,fun _ => .recording none,fun _ => 0⟩
    (parse w 20 grouped "((x))".toList 0 none none {}).1 =
        .value (.success (.str "x".toList) 5 false) ∧
      (parse w.uncut 20 grouped.uncut "((x))".toList 0 none none {}).1 =
        .value (.success (.str "x".toList) 5 false) := by
  intro w
  have ho : (parse w 20 grouped "((x))".toList 0 none none {}).1 =
      .value (.success (.str "x".toList) 5 false) := rfl
  have hs : (State.setDepth 0 {}).Uncut w (State.setDepth 0 {}) :=
    ⟨Memory.uncut_new w,.steady (.inr fun _ => Hook.calm_recording) rfl⟩
  exact ⟨ho,(parse_uncut (pruning_grouped _ _) hs rfl rfl ho (Nat.le_refl 20)).1 _ _ _ rfl⟩

/-- What a flat map goes on with lies below it, and so below an option around it: a cut there keeps
the option from taking what the second branch would take. -/
example :
    let nothing : Parser := .terminal (.named "nothing") .pass
    let committed : Parser := .choice [.seq (.named "first") [.cut nothing,
      .word (.named "b") "b".toList],.word (.named "c") "c".toList]
    let late : Parser := .opt (.flatMap (.named "late") nothing (fun _ => .ok committed)
      "late".toList)
    let w : World := ⟨fun _ _ => .ok late,fun _ => .recording none,fun _ => 0⟩
    (parse w 9 late "c".toList 0 none none {}).1 = .value (.success .none 0 false) ∧
      (parse w.uncut 9 late.uncut "c".toList 0 none none {}).1 = .value (.success .none 1 false) :=
  ⟨rfl,rfl⟩

end Parsing
end Peg
