import Peg.Proofs.Asking
import Peg.Proofs.Execution
import Peg.Proofs.Lockstep
import Peg.Proofs.Visits

/-! Runs that may nest deeper.
A computation that has ended ends in the same way, and in the same state, when it may nest deeper.
Main statements: so do questions, traced nodes and whole runs with all that they note; hence a run
settles to one computation that knows no limit. -/
namespace Peg

namespace Run

variable {α β γ δ : Type}

/-- Ending as another computation does from every state from which that one ends. -/
def Finishes (x y : Run α) : Prop := ∀ s, (x s).1 ≠ .exhausted → y s = x s

theorem finishes_refl (x : Run α) : x.Finishes x := fun _ _ => rfl

theorem finishes_asking : Rules.Asking fun (α : Type) (x y : Run α) => x.Finishes y where
  done a := finishes_refl _
  bind := by
    intro α β x y f g hx hf s hne
    rw [bind_apply] at hne ⊢
    rw [bind_apply]
    rcases h : x s with ⟨a | fault | _,u⟩
    · rw [h] at hne
      rw [hx s (by simp [h]),h]
      exact hf a u hne
    · rw [hx s (by simp [h]),h]
    · rw [h] at hne
      exact absurd rfl hne
  raise fault := finishes_refl _
  exhaust _ h := absurd rfl h
  known id := finishes_refl _
  pending := finishes_refl _
  keep id units := finishes_refl _

theorem Finishes.map {x y : Run α} (h : x.Finishes y) (f : α → β) :
    (f <$> x).Finishes (f <$> y) := by
  intro s hne
  rw [map_apply] at hne
  rw [map_apply,map_apply,h s fun he => hne (by rw [he]; rfl)]

/-- The answer for a rule ends as before if the questions below it do. -/
theorem Finishes.resolve {unit unit' : Parser → Run Bool} (h : ∀ p, (unit p).Finishes (unit' p))
    (w : World) (r : RuleId) : (Rules.resolve w unit r).Finishes (Rules.resolve w unit' r) := by
  intro s hne
  have hx := finishes_asking.bind (finishes_refl (Rules.body w r)) h (s.mapMemory (·.enter r))
  cases hu : (s.memory.cell r).unit with
  | some u => rw [Rules.resolve_known hu,Rules.resolve_known hu]
  | none =>
    cases hlow : Memory.placeOf r s.memory.resolving with
    | some low => rw [Rules.resolve_guessed hu hlow,Rules.resolve_guessed hu hlow]
    | none =>
      rcases hb : (Rules.body w r >>= unit) (s.mapMemory (·.enter r)) with ⟨u | fault | _,t⟩
      · have hb' := (hx (by simp [hb])).trans hb
        rw [Rules.resolve_answered hu hlow hb,Rules.resolve_answered hu hlow hb']
      · have hb' := (hx (by simp [hb])).trans hb
        rw [Rules.resolve_raised hu hlow hb,Rules.resolve_raised hu hlow hb']
      · rw [Rules.resolve_exhausted hu hlow hb] at hne
        exact absurd rfl hne

/-- A traced node ends as before if the node does. -/
theorem Finishes.traced {x y : Run α} (h : x.Finishes y) (outcome : α → Outcome) (w : World)
    (c : Context) (hook : HookId) (name : Text) (i : Int) :
    (Hooks.traced outcome w c hook name i x).Finishes (Hooks.traced outcome w c hook name i y) := by
  intro s hne
  cases hd : Config.hides c.config s.tracing.depth with
  | true =>
    rw [Hooks.traced_hidden w c hook name i outcome hd] at hne ⊢
    rw [Hooks.traced_hidden w c hook name i outcome hd]
    exact h s hne
  | false =>
    cases hf : (w.hook hook).fault? s.tracing.calls
        (Hooks.entering c hook name i s.tracing.depth) with
    | some fault =>
      rw [Hooks.traced_refused c name i outcome hd hf,Hooks.traced_refused c name i outcome hd hf]
    | none =>
      rw [Hooks.traced_entered c name i outcome hd hf] at hne
      rw [Hooks.traced_entered c name i outcome hd hf,Hooks.traced_entered c name i outcome hd hf,
        h _ fun hx => hne (by dsimp only; rw [hx]; rfl)]

theorem Finishes.logged {x y : Run α} (h : x.Finishes y) (outcome : α → Outcome) (w : World)
    (c : Context) (own : Option HookId) (name : Text) (i : Int) :
    (Hooks.logged outcome w c own name i x).Finishes (Hooks.logged outcome w c own name i y) :=
  fun s => h.traced outcome w c (Hooks.chosen w own c.hook s.tracing.calls) name i s

end Run

/-- Asked with more depth, a question ends as before. -/
theorem Rules.isUnit_finishes (w : World) {n m : Nat} (hm : n ≤ m) (p : Parser) :
    (isUnit w n p).Finishes (isUnit w m p) := by
  induction n generalizing m p with
  | zero => exact fun _ h => absurd rfl h
  | succ n ih =>
    obtain ⟨m,rfl⟩ := Nat.exists_eq_add_of_le' (Nat.le_trans (Nat.le_add_left 1 n) hm)
    have hnm : n ≤ m := by omega
    exact Run.finishes_asking.isUnit p (fun q _ => ih hnm q) fun r _ _ =>
      Run.Finishes.resolve (ih hnm) w r

namespace Recorded

/-- Ending as before is kept by composing, also for what is noted. -/
theorem finishes_congruence :
    Parsing.Congruence fun (α : Type) (x y : Recorded α) => x.run.Finishes y.run where
  done _ := Run.finishes_refl _
  bind hx hf := Run.finishes_asking.bind hx fun a =>
    Run.finishes_asking.bind (hf a.1) fun _ => Run.finishes_refl _
  raise _ := Run.finishes_refl _
  exhaust _ h := absurd rfl h

end Recorded

namespace Parsing

variable (w : World) (c : Context)

/-- With more depth a parser ends as before, and notes the same. -/
theorem record_finishes {n m : Nat} (hm : n ≤ m) (p : Parser) (i : Int) :
    (record w c n p i).run.Finishes (record w c m p i).run := by
  have hR := Recorded.finishes_congruence
  induction n generalizing m p i with
  | zero => exact fun _ h => absurd rfl h
  | succ n ih =>
    obtain ⟨m,rfl⟩ := Nat.exists_eq_add_of_le' (Nat.le_trans (Nat.le_add_left 1 n) hm)
    have hnm : n ≤ m := by omega
    refine Run.Finishes.map ?_ _
    refine hR.node c.text p i (fun q _ j => ih hnm q j) (fun _ _ _ _ _ q _ _ j => ih hnm q j)
      ?_ ?_ ?_
    · intro id parts _
      exact Run.Finishes.map (Run.finishes_asking.shape id fun q _ =>
        Rules.isUnit_finishes w hnm q) _
    · intro r name _
      refine hR.bind (Run.finishes_refl _) fun body => ?_
      cases c.tracesRules with
      | some hook => exact (ih hnm body i).traced Prod.fst w c hook name i
      | none => exact ih hnm body i
    · exact fun id body name hook _ => (ih hnm body i).logged Prod.fst w c hook name i

theorem run_finishes {n m : Nat} (hm : n ≤ m) (p : Parser) (i : Int) :
    (run w c n p i).Finishes (run w c m p i) := by
  rw [← forget_record w c n p i,← forget_record w c m p i]
  exact (record_finishes w c hm p i).map Prod.fst

end Parsing

namespace Run

variable {α β γ δ : Type}

/-- Two ends of computations side by side: in the same state with values that are related or with
the same fault, or both given up. -/
inductive Ends (Q : α → β → Prop) : Answer α × State → Answer β × State → Prop
  | value {a : α} {b : β} {s : State} : Q a b → Ends Q (.value a,s) (.value b,s)
  | raised {fault : Fault} {s : State} : Ends Q (.raised fault,s) (.raised fault,s)
  | exhausted {s s' : State} : Ends Q (.exhausted,s) (.exhausted,s')

namespace Ends

variable {P : α → β → Prop} {Q : γ → δ → Prop} {r : Answer α × State} {r' : Answer β × State}

theorem self (r : Answer α × State) : Ends (· = ·) r r := by
  obtain ⟨a | fault | _,s⟩ := r
  · exact .value rfl
  · exact .raised
  · exact .exhausted

theorem imp {P' : α → β → Prop} (h : Ends P r r') (hP : ∀ a b, P a b → P' a b) : Ends P' r r' := by
  cases h with
  | value h => exact .value (hP _ _ h)
  | raised => exact .raised
  | exhausted => exact .exhausted

theorem answer_eq {r r' : Answer α × State} (h : Ends (· = ·) r r') : r.1 = r'.1 := by
  cases h with
  | value h => exact congrArg Answer.value h
  | raised => rfl
  | exhausted => rfl

theorem flip (h : Ends P r r') : Ends (fun b a => P a b) r' r := by
  cases h with
  | value h => exact .value h
  | raised => exact .raised
  | exhausted => exact .exhausted

theorem trans {Q : β → γ → Prop} {R : α → γ → Prop} {r'' : Answer γ × State} (h : Ends P r r')
    (h' : Ends Q r' r'') (hR : ∀ a b c, P a b → Q b c → R a c) : Ends R r r'' := by
  cases h with
  | value hab => cases h' with | value hbc => exact .value (hR _ _ _ hab hbc)
  | raised =>
    cases h'
    exact .raised
  | exhausted =>
    cases h'
    exact .exhausted

theorem bind {x : Run α} {y : Run β} {f : α → Run γ} {g : β → Run δ} {s s' : State}
    (hx : Ends P (x s) (y s'))
    (hf : ∀ a b u, P a b → y s' = (.value b,u) → Ends Q (f a u) (g b u)) :
    Ends Q ((x >>= f) s) ((y >>= g) s') := by
  rw [bind_apply,bind_apply]
  generalize x s = r at hx ⊢
  generalize y s' = r' at hx hf ⊢
  cases hx with
  | value hab => exact hf _ _ _ hab rfl
  | raised => exact .raised
  | exhausted => exact .exhausted

theorem map {x : Run α} {y : Run β} {f : α → γ} {g : β → δ} {s s' : State}
    (hx : Ends P (x s) (y s')) (hf : ∀ a b, P a b → Q (f a) (g b)) :
    Ends Q ((f <$> x) s) ((g <$> y) s') := by
  rw [map_apply,map_apply]
  generalize x s = r at hx ⊢
  generalize y s' = r' at hx ⊢
  cases hx with
  | value hab => exact .value (hf _ _ hab)
  | raised => exact .raised
  | exhausted => exact .exhausted

/-- Traced nodes end in the same way if the nodes do, wherever they are run. -/
theorem traced {x y : Run α} {outcome : α → Outcome} {w : World} {c : Context} {hook : HookId}
    {name : Text} {i : Int} {s : State} (hhere : Ends (· = ·) (x s) (y s))
    (hinside : Ends (· = ·) (x (Hooks.inside w c hook name i s))
      (y (Hooks.inside w c hook name i s))) :
    Ends (· = ·) (Hooks.traced outcome w c hook name i x s)
      (Hooks.traced outcome w c hook name i y s) := by
  cases hd : Config.hides c.config s.tracing.depth with
  | true =>
    rw [Hooks.traced_hidden w c hook name i outcome hd,Hooks.traced_hidden w c hook name i outcome hd]
    exact hhere
  | false =>
    cases hf : (w.hook hook).fault? s.tracing.calls
        (Hooks.entering c hook name i s.tracing.depth) with
    | some fault =>
      rw [Hooks.traced_refused c name i outcome hd hf,Hooks.traced_refused c name i outcome hd hf]
      exact .raised
    | none =>
      rw [Hooks.traced_entered c name i outcome hd hf,Hooks.traced_entered c name i outcome hd hf]
      generalize x (Hooks.inside w c hook name i s) = r at hinside ⊢
      generalize y (Hooks.inside w c hook name i s) = r' at hinside ⊢
      cases hinside with
      | value h =>
        cases h
        exact .self _
      | raised => exact .self _
      | exhausted => exact .exhausted

end Ends

/-- Computations that end side by side from every state. -/
def Abreast (α β : Type) (Q : α → β → Prop) (x : Run α) (y : Run β) : Prop :=
  ∀ s, Ends Q (x s) (y s)

theorem abreast_lockstep : Parsing.Lockstep Abreast where
  done hQ _ := .value hQ
  raise _ _ := .raised
  exhaust _ := .exhausted
  bind hx hf s := (hx s).bind fun a b u hab _ => hf a b hab u

/-- Computations stay abreast when one of them is gone on from without a question. -/
theorem Abreast.then {P : α → β → Prop} {Q : α → γ → Prop} {x : Run α} {y : Run β} {f : β → γ}
    (h : Abreast _ _ P x y) (hf : ∀ a b, P a b → Q a (f b)) :
    Abreast _ _ Q x (y >>= fun b => pure (f b)) := by
  intro s
  have hxy := h s
  rw [bind_apply]
  generalize x s = r at hxy ⊢
  generalize y s = r' at hxy ⊢
  cases hxy with
  | value hab => exact .value (hf _ _ hab)
  | raised => exact .raised
  | exhausted => exact .exhausted

/-- From every state, ending in one way from some depth on. -/
def SettlesTo (x : Nat → Run α) (a : Run α) : Prop :=
  ∀ s, ∃ deep, ∀ n ≥ deep, Ends (· = ·) (x n s) (a s)

namespace SettlesTo

variable {x : Nat → Run α} {a b : Run α}

theorem constant (a : Run α) : SettlesTo (fun _ => a) a := fun s => ⟨0,fun _ _ => .self (a s)⟩

theorem bind {f : α → Nat → Run β} {g : α → Run β} (hx : SettlesTo x a)
    (hf : ∀ v, SettlesTo (f v) (g v)) : SettlesTo (fun n => x n >>= fun v => f v n) (a >>= g) := by
  intro s
  obtain ⟨deep,hx⟩ := hx s
  -- only for a value it matters where the rest settles, and then it is one rest
  by_cases ha : ∃ v u, a s = (.value v,u)
  · obtain ⟨v,u,ha⟩ := ha
    obtain ⟨deep',hf⟩ := hf v u
    refine ⟨max deep deep',fun n hn => (hx n (by omega)).bind ?_⟩
    rintro v' v'' u' rfl hv
    cases ha.symm.trans hv
    exact hf n (by omega)
  · refine ⟨deep,fun n hn => (hx n hn).bind fun v' v u _ hv => ?_⟩
    exact absurd ⟨v,u,hv⟩ ha

theorem map (h : SettlesTo x a) (f : α → β) : SettlesTo (fun n => f <$> x n) (f <$> a) := by
  intro s
  obtain ⟨deep,h⟩ := h s
  exact ⟨deep,fun n hn => (h n hn).map fun _ _ => congrArg f⟩

theorem traced {x : Nat → Run Outcome} {a : Run Outcome} (h : SettlesTo x a) (w : World)
    (c : Context) (hook : HookId) (name : Text) (i : Int) :
    SettlesTo (fun n => Hooks.traced id w c hook name i (x n)) (Hooks.traced id w c hook name i a) := by
  intro s
  obtain ⟨deep,hhere⟩ := h s
  obtain ⟨deep',hinside⟩ := h (Hooks.inside w c hook name i s)
  exact ⟨max deep deep',fun n hn => .traced (hhere n (by omega)) (hinside n (by omega))⟩

theorem logged {x : Nat → Run Outcome} {a : Run Outcome} (h : SettlesTo x a) (w : World)
    (c : Context) (own : Option HookId) (name : Text) (i : Int) :
    SettlesTo (fun n => Hooks.logged id w c own name i (x n)) (Hooks.logged id w c own name i a) :=
  fun s => h.traced w c (Hooks.chosen w own c.hook s.tracing.calls) name i s

/-- Leaving out the first computations makes no difference. -/
theorem of_succ (h : SettlesTo (fun n => x (n + 1)) a) : SettlesTo x a := by
  intro s
  obtain ⟨deep,h⟩ := h s
  refine ⟨deep + 1,fun n hn => ?_⟩
  obtain ⟨n,rfl⟩ := Nat.exists_eq_add_of_le' hn
  exact h (n + deep) (by omega)

/-- What a computation settles to is told by how it ends. -/
theorem unique (h : SettlesTo x a) (h' : SettlesTo x b) (s : State) : Ends (· = ·) (a s) (b s) := by
  obtain ⟨deep,h⟩ := h s
  obtain ⟨deep',h'⟩ := h' s
  exact (h (max deep deep') (by omega)).flip.trans (h' (max deep deep') (by omega))
    fun _ _ _ hab hbc => hab.symm.trans hbc

end SettlesTo

/-- Computations that end with more depth as with less settle to one. -/
theorem exists_settlesTo {x : Nat → Run α} (h : ∀ n m, n ≤ m → (x n).Finishes (x m)) :
    ∃ a, SettlesTo x a := by
  have hends (s : State) : ∃ r, ∃ deep, ∀ n ≥ deep, Ends (· = ·) (x n s) r := by
    by_cases hx : ∃ n, (x n s).1 ≠ .exhausted
    · obtain ⟨deep,hne⟩ := hx
      exact ⟨x deep s,deep,fun n hn => h deep n hn s hne ▸ .self _⟩
    · push Not at hx
      refine ⟨(.exhausted,s),0,fun n _ => ?_⟩
      rw [← Prod.eta (x n s),hx n]
      exact .exhausted
  choose a ha using hends
  exact ⟨a,ha⟩

end Run

namespace Parsing

variable (w : World) (c : Context)

theorem exists_record_settlesTo (p : Parser) (i : Int) :
    ∃ a : Run (Outcome × List Execution), Run.SettlesTo (fun n => (record w c n p i).run) a :=
  Run.exists_settlesTo fun _ _ hm => record_finishes w c hm p i

/-- Runs a parser without a limit, and notes every execution; where it would never end it is given
up. -/
noncomputable def recorded (p : Parser) (i : Int) : Recorded Outcome :=
  ⟨(exists_record_settlesTo w c p i).choose⟩

theorem record_settlesTo (p : Parser) (i : Int) :
    Run.SettlesTo (fun n => (record w c n p i).run) (recorded w c p i).run :=
  (exists_record_settlesTo w c p i).choose_spec

/-- Without a limit a choice tries its branches. -/
theorem recorded_choice (ps : List Parser) (i : Int) (s : State) :
    Run.Ends (· = ·) ((recorded w c (.choice ps) i).run s)
      ((Recorded.note (.choice ps) i (choice (recorded w c) (.choice ps) i ps)).run s) := by
  have hbranches (whole : Parser) (qs : List Parser) :
      Run.SettlesTo (fun n => (choice (record w c n) whole i qs).run)
        (choice (recorded w c) whole i qs).run := by
    induction qs with
    | nil => exact .constant _
    | cons q qs ih =>
      refine (record_settlesTo w c q i).bind fun o => ?_
      obtain ⟨o,xs⟩ := o
      cases o with
      | success v j cut => exact .constant _
      | failure j cause cut =>
        cases cut with
        | true => exact .constant _
        | false => exact ih.bind fun _ => .constant _
  refine (record_settlesTo w c (.choice ps) i).unique ?_ s
  exact .of_succ ((hbranches (.choice ps) ps).map _)

end Parsing
end Peg
