import Peg.Proofs.Mirrors
import Peg.Proofs.Uses

/-! The meaning of a parser over a grammar: what it does with no memory and the truth about unit
parsers.  Hooks are told as ever; the plain meaning knows nothing of them.  Main statements: whatever
its meaning is at some depth, the parser does, from every settled memory and at every depth that is
large enough; and whatever it does at some depth is its meaning. -/
namespace Peg

namespace Answer

variable {α β : Type}

def andThen (x : Answer α) (f : α → Answer β) : Answer β :=
  match x with
  | value a => f a
  | raised fault => raised fault
  | exhausted => exhausted

instance : Monad Answer where
  pure := value
  bind := andThen

instance : Abrupt Answer where
  raise := raised
  exhaust := exhausted

instance : LawfulMonad Answer := LawfulMonad.mk' Answer
  (fun x => by cases x <;> rfl)
  (fun _ _ => rfl)
  (fun x f g => by cases x <;> rfl)

@[simp] theorem value_bind (a : α) (f : α → Answer β) : (value a >>= f) = f a := rfl

@[simp] theorem raised_bind (fault : Fault) (f : α → Answer β) :
    (raised fault >>= f) = raised fault := rfl

@[simp] theorem exhausted_bind (f : α → Answer β) : (exhausted >>= f) = exhausted := rfl

/-- Giving the same answer as another computation, if that one gives any, is kept by composing. -/
theorem finished_congruence :
    Parsing.Congruence fun (α : Type) (x y : Answer α) => x ≠ .exhausted → y = x where
  done _ _ := rfl
  bind := by
    intro α β x y f g hx hf hne
    cases x with
    | value a =>
      rw [hx (by simp)]
      exact hf a hne
    | raised fault =>
      rw [hx (by simp)]
      rfl
    | exhausted => exact absurd rfl hne
  raise _ _ := rfl
  exhaust h := absurd rfl h

end Answer

/-- Computations at every depth of nesting. -/
def Nested (α : Type) := Nat → Run α

namespace Nested

instance : Monad Nested where
  pure a := fun _ => pure a
  bind x f := fun n => x n >>= fun a => f a n

instance : Abrupt Nested where
  raise fault := fun _ => Run.raise fault
  exhaust := fun _ => Run.exhaust

/-- Looking at one depth is kept by composing. -/
theorem depth_congruence (n : Nat) :
    Parsing.Congruence fun (α : Type) (x : Nested α) (y : Run α) => x n = y where
  done _ := rfl
  bind := by
    rintro α β x y f g rfl hf
    exact congrArg (x n >>= ·) (funext hf)
  raise _ := rfl
  exhaust := rfl

end Nested

namespace Parsing

variable (w : World) (c : Context)

def nestedSurroundings : Surroundings Nested where
  shape id parts := fun n => (surroundings w c n).shape id parts
  rule r name i go := fun n => (surroundings w c n).rule r name i fun q => go q n
  log hook name i x := fun n => (surroundings w c n).log hook name i (x n)

/-- One depth further, running a parser is running its node at all depths. -/
theorem run_succ (p : Parser) (i : Int) (n : Nat) :
    node (nestedSurroundings w c) c.text (fun q j m => run w c m q j) p i n =
      run w c (n + 1) p i := by
  have hR := Nested.depth_congruence n
  refine hR.node c.text p i (fun q _ j => ?_) (fun _ _ _ _ _ q _ _ j => ?_) (fun _ _ _ => ?_)
    (fun _ _ _ => ?_) (fun _ _ _ _ _ => ?_)
  all_goals rfl

end Parsing

/-- Answers at every depth of nesting. -/
def Leveled (α : Type) := Nat → Answer α

namespace Leveled

instance : Monad Leveled where
  pure a := fun _ => .value a
  bind x f := fun level => x level >>= fun a => f a level

instance : Abrupt Leveled where
  raise fault := fun _ => .raised fault
  exhaust := fun _ => .exhausted

instance : LawfulMonad Leveled := LawfulMonad.mk' Leveled
  (fun x => by
    funext level
    change (x level >>= fun a => .value a) = x level
    cases x level <;> rfl)
  (fun _ _ => rfl)
  (fun x f g => by
    funext level
    change ((x level >>= fun a => f a level) >>= fun b => g b level) =
      x level >>= fun a => f a level >>= fun b => g b level
    cases x level <;> rfl)

/-- Looking at one level is kept by composing. -/
theorem level_congruence (level : Nat) :
    Parsing.Congruence fun (α : Type) (x : Leveled α) (y : Answer α) => x level = y where
  done _ := rfl
  bind := by
    rintro α β x y f g rfl hf
    exact congrArg (x level >>= ·) (funext hf)
  raise _ := rfl
  exhaust := rfl

end Leveled

namespace Grammar

variable {G : Grammar} {w : World} {c : Context} {α β : Type}

/-- What surrounds a node that needs no memory and no hooks. -/
noncomputable def plain (G : Grammar) : Parsing.Surroundings Answer where
  shape _ parts := pure (parts.map G.isUnit)
  rule r _ _ go := go (G.body r)
  log _ _ _ x := x

/-- What a parser does at a position of a text, with so deep a nesting. -/
noncomputable def eval (G : Grammar) (t : Text) : Nat → Parser → Int → Answer Outcome
  | 0, _, _ => .exhausted
  | n + 1, p, i => Parsing.node G.plain t (G.eval t n) p i

/-- What surrounds a node that needs no memory but may be traced. -/
noncomputable def observed (G : Grammar) (w : World) (c : Context) : Parsing.Surroundings Run where
  shape _ parts := pure (parts.map G.isUnit)
  rule r name i go :=
    match c.tracesRules with
    | some hook => Hooks.traced id w c hook name i (go (G.body r))
    | none => go (G.body r)
  log own name i x := Hooks.logged id w c own name i x

section Rules

variable {r : RuleId} {name : Text} {i : Int} {go : Parser → Run Outcome}

theorem observed_rule_some {hook : HookId} (h : c.tracesRules = some hook) :
    (G.observed w c).rule r name i go = Hooks.traced id w c hook name i (go (G.body r)) := by
  simp only [observed,h]

theorem observed_rule_none (h : c.tracesRules = none) :
    (G.observed w c).rule r name i go = go (G.body r) := by
  simp only [observed,h]

end Rules

/-- What a parser does at a position, with so deep a nesting, where hooks are told of it. -/
noncomputable def means (G : Grammar) (w : World) (c : Context) : Nat → Parser → Int → Run Outcome
  | 0, _, _ => Run.exhaust
  | n + 1, p, i => Parsing.node (G.observed w c) c.text (G.means w c n) p i

/-- What a parser does at some depth it does at every greater one. -/
theorem eval_of_le {t : Text} {n m : Nat} (hm : n ≤ m) {p : Parser} {i : Int}
    (h : G.eval t n p i ≠ .exhausted) : G.eval t m p i = G.eval t n p i := by
  have hR := Answer.finished_congruence
  induction n generalizing m p i with
  | zero => exact absurd rfl h
  | succ n ih =>
    obtain ⟨m,rfl⟩ := Nat.exists_eq_add_of_le' (Nat.le_trans (Nat.le_add_left 1 n) hm)
    have hnm : n ≤ m := by omega
    refine hR.node t p i (fun q _ j => ih hnm) (fun _ _ _ _ _ q _ _ j => ih hnm) ?_ ?_ ?_ h
    · exact fun _ _ _ _ => rfl
    · exact fun _ _ _ => ih hnm
    · exact fun _ _ _ _ _ => ih hnm

/-- In every state the same answer, or what some hook raises. -/
def Follows (w : World) (x : Run α) (y : Answer α) : Prop :=
  ∀ s, (x s).1 = y ∨ ∃ fault, w.HookRaises fault ∧ (x s).1 = .raised fault

theorem follows_congruence (w : World) :
    Parsing.Congruence fun (α : Type) (x : Run α) (y : Answer α) => Follows w x y where
  done _ _ := .inl rfl
  bind := by
    intro α β x y f g hx hf s
    have hs := hx s
    rw [Run.bind_apply]
    rcases h : x s with ⟨a | fault | _,u⟩
    all_goals
      rw [h] at hs
      rcases hs with rfl | ⟨fault,hh,hs⟩
    · exact hf a u
    · cases hs
    · exact .inl rfl
    · exact .inr ⟨fault,hh,by simpa using hs⟩
    · exact .inl rfl
    · cases hs
  raise _ _ := .inl rfl
  exhaust _ := .inl rfl

theorem Follows.traced {x : Run Outcome} {y : Answer Outcome} (h : Follows w x y) (c : Context)
    (hook : HookId) (name : Text) (i : Int) :
    Follows w (Hooks.traced id w c hook name i x) y := by
  intro s
  cases Hooks.traced_traces w c hook name id i x s with
  | hidden _ hr => exact hr ▸ h s
  | stopped _ hf ha => exact .inr ⟨_,⟨_,_,_,Hook.fault?_of_reply hf⟩,ha⟩
  | @heard u _ _ _ _ _ _ ha =>
    rcases Answer.heard_cases _ (x u).1 with he | ⟨fault,hh,he⟩
    · rw [ha,he]
      exact h u
    · exact .inr ⟨fault,Hooks.told_eq_some w hh,ha.trans he⟩

/-- Tracing does not change what a parser does, unless a hook raises. -/
theorem means_follows (n : Nat) (p : Parser) (i : Int) :
    Follows w (G.means w c n p i) (G.eval c.text n p i) := by
  have hR := follows_congruence w
  induction n generalizing p i with
  | zero => exact hR.exhaust
  | succ n ih =>
    refine hR.node c.text p i (fun q _ j => ih q j) (fun _ _ _ _ _ q _ _ j => ih q j) ?_ ?_ ?_
    · exact fun id parts _ => hR.done _
    · intro r name _
      cases ht : c.tracesRules with
      | some hook =>
        rw [observed_rule_some ht]
        exact (ih _ _).traced c hook name i
      | none =>
        rw [observed_rule_none ht]
        exact ih _ _
    · exact fun id body name own _ s =>
        (ih _ _).traced c (Hooks.chosen w own c.hook s.tracing.calls) name i s

theorem means_eq_eval (hc : ∀ hook, (w.hook hook).Calm) (n : Nat) (p : Parser) (i : Int)
    (s : State) : (G.means w c n p i s).1 = G.eval c.text n p i := by
  rcases means_follows (G := G) (w := w) n p i s with h | ⟨fault,⟨hook,before,call,hf⟩,-⟩
  · exact h
  · rw [hc hook] at hf
    cases hf

theorem eval_of_means {n : Nat} {p : Parser} {i : Int} {s : State} {o : Outcome}
    (h : (G.means w c n p i s).1 = .value o) : G.eval c.text n p i = .value o := by
  rcases means_follows (G := G) (w := w) n p i s with he | ⟨fault,-,hf⟩
  · exact he ▸ h
  · rw [hf] at h
    cases h

/-- A settled memory, after a record beside which hooks do the same. -/
structure SettledAt (G : Grammar) (w : World) (refusals : RuleId → Nat) (t : Tracing) (s : State) :
    Prop where
  settled : G.Settled refusals s.memory
  indifferent : w.Impartial t s.tracing

/-- From every settled memory and after every record beside which hooks do the same, a computation
that is nested deep enough ends with this answer, and leaves such a memory and such a record. -/
def Reaches (G : Grammar) (w : World) (t : Tracing) (x : Nested α) (r : Answer α × State) : Prop :=
  ∃ deep, ∀ n ≥ deep, ∀ s, G.SettledAt w (fun _ => 0) t s →
    ∃ s', x n s = (r.1,s') ∧ G.SettledAt w (fun _ => 0) r.2.tracing s'

variable {t : Tracing}

theorem Reaches.succ {x : Nested α} {r : Answer α × State}
    (h : G.Reaches w t (fun n => x (n + 1)) r) : G.Reaches w t x r := by
  obtain ⟨deep,h⟩ := h
  refine ⟨deep + 1,fun n hn => ?_⟩
  obtain ⟨m,rfl⟩ := Nat.exists_eq_add_of_le' hn
  exact h (m + deep) (by omega)

theorem Reaches.bind {x : Nested α} {f : α → Nested β} {a : α} {u : State} {r : Answer β × State}
    (hx : G.Reaches w t x (.value a,u)) (hf : G.Reaches w u.tracing (f a) r) :
    G.Reaches w t (x >>= f) r := by
  obtain ⟨deep,hx⟩ := hx
  obtain ⟨deep',hf⟩ := hf
  refine ⟨max deep deep',fun n hn s hs => ?_⟩
  obtain ⟨u,hu,hsu⟩ := hx n (by omega) s hs
  obtain ⟨v,hv,hsv⟩ := hf n (by omega) u hsu
  exact ⟨v,(Run.bind_of_value hu).trans hv,hsv⟩

theorem Reaches.bind_raised {x : Nested α} {f : α → Nested β} {fault : Fault} {u : State}
    (hx : G.Reaches w t x (.raised fault,u)) : G.Reaches w t (x >>= f) (.raised fault,u) := by
  obtain ⟨deep,hx⟩ := hx
  refine ⟨deep,fun n hn s hs => ?_⟩
  obtain ⟨u,hu,hsu⟩ := hx n hn s hs
  exact ⟨u,Run.bind_of_raised hu,hsu⟩

/-- Reaching every answer but the missing one is kept by composing. -/
theorem reaches_congruence :
    Parsing.Congruence fun (α : Type) (x : Nested α) (y : Run α) =>
      ∀ s, (y s).1 ≠ .exhausted → G.Reaches w s.tracing x (y s) where
  done a s _ := ⟨0,fun _ _ s' hs => ⟨s',rfl,hs⟩⟩
  bind := by
    intro α β x y f g hx hf s hne
    have hxs := hx s
    rw [Run.bind_apply] at hne ⊢
    rcases hy : y s with ⟨a | fault | _,u⟩
    all_goals rw [hy] at hxs hne
    · exact (hxs (by simp)).bind (hf a u hne)
    · exact (hxs (by simp)).bind_raised
    · exact absurd rfl hne
  raise fault s _ := ⟨0,fun _ _ s' hs => ⟨s',rfl,hs⟩⟩
  exhaust s h := absurd rfl h

/-- A traced node reaches what the node reaches, or what its hook raises. -/
theorem Reaches.traced {x : Nested Outcome} {y : Run Outcome}
    (h : ∀ s, (y s).1 ≠ .exhausted → G.Reaches w s.tracing x (y s)) {x' : Nested Outcome}
    {s u : State} {r : Answer Outcome × State}
    (ht : ∀ n s', w.Impartial s.tracing s'.tracing →
      Hooks.TracesBoth w.Impartial (· = ·) y (x n) s u s' r (x' n s'))
    (hne : r.1 ≠ .exhausted) : G.Reaches w s.tracing x' r := by
  have hdeep (s : State) : ∃ deep, (y s).1 ≠ .exhausted → ∀ n ≥ deep, ∀ s',
      G.SettledAt w (fun _ => 0) s.tracing s' →
        ∃ v, x n s' = ((y s).1,v) ∧ G.SettledAt w (fun _ => 0) (y s).2.tracing v := by
    by_cases ha : (y s).1 = .exhausted
    · exact ⟨0,fun h => absurd ha h⟩
    · exact (h s ha).imp fun deep h _ => h
  obtain ⟨deep,hhere⟩ := hdeep s
  obtain ⟨deep',hinside⟩ := hdeep u
  refine ⟨max deep deep',fun n hn s' hs => ?_⟩
  cases ht n s' hs.indifferent with
  | hidden hr hr' =>
    rw [hr] at hne ⊢
    rw [hr']
    exact hhere hne n (by omega) s' hs
  | stopped hr hr' _ hm hw => exact ⟨(x' n s').2,Prod.ext (hr'.trans hr.symm) rfl,hm ▸ hs.settled,hw⟩
  | @heard u' told told' _ hm hu hr hr' hsame _ hum =>
    have hy : (y u).1 ≠ .exhausted := fun he => hne (by rw [hr,he]; rfl)
    obtain ⟨v,hx,hv⟩ := hinside hy n (by omega) u' ⟨hm ▸ hs.settled,hu⟩
    rw [hx] at hr' hsame hum
    obtain ⟨rfl,hw⟩ := hsame (.self (fun _ => rfl) _) hv.indifferent
    exact ⟨(x' n s').2,Prod.ext (hr'.trans hr.symm) rfl,hum ▸ hv.settled,hw⟩

theorem reaches_body (hw : G.Supplied w fun _ => 0) {r : RuleId} (hr : r ∈ G.rules) (u : State) :
    G.Reaches w u.tracing (fun _ => Rules.body w r) (.value (G.body r),u) := by
  refine ⟨0,fun _ _ s hs => ?_⟩
  obtain ⟨p,s',hx,rfl,hs'⟩ := Asks.answered (body_asks hw hr) trivial hs.settled
  have huntold := Rules.untold_body w r s
  rw [hx] at huntold
  exact ⟨s',hx,hs',huntold ▸ hs.indifferent⟩

theorem reaches_shape (hw : G.Supplied w fun _ => 0) {id : Ident} {parts : List Parser}
    (hp : G.Has (.seq id parts)) (u : State) :
    G.Reaches w u.tracing (fun n => Rules.shape (Rules.isUnit w n) id parts)
      (.value (parts.map G.isUnit),u) := by
  refine ⟨Parser.sizes parts + G.weight * G.pending [],fun n hn s hs => ?_⟩
  obtain ⟨s',hx,hs'⟩ := shape_exact hw hp hn hs.settled
  have huntold := Rules.untold_shape w n id parts s
  rw [hx] at huntold
  exact ⟨s',hx,hs',huntold ▸ hs.indifferent⟩

theorem reaches_means (hw : G.Supplied w fun _ => 0) (n : Nat) {p : Parser} (hp : G.Has p) (i : Int)
    {s : State} (h : (G.means w c n p i s).1 ≠ .exhausted) :
    G.Reaches w s.tracing (fun m => Parsing.run w c m p i) (G.means w c n p i s) := by
  have hR := reaches_congruence (G := G) (w := w)
  induction n generalizing p i s with
  | zero => exact absurd rfl h
  | succ n ih =>
    have hn : G.Reaches w s.tracing (Parsing.node (Parsing.nestedSurroundings w c) c.text
        (fun q j m => Parsing.run w c m q j) p i) (G.means w c (n + 1) p i s) := by
      refine hR.node c.text p i (fun q hq j s => ih (hp.children hq) j) ?_ ?_ ?_ ?_ s h
      · rintro id body next name v q rfl hq j s
        exact ih (hp.next hq) j
      · rintro id parts rfl s -
        exact reaches_shape hw hp s
      · rintro r name rfl s hne
        have hb := G.closed r hp.mem_rules
        change ((G.observed w c).rule r name i (fun q => G.means w c n q i) s).1 ≠ _ at hne
        change G.Reaches w s.tracing (_ >>= _)
          ((G.observed w c).rule r name i (fun q => G.means w c n q i) s)
        refine Reaches.bind (reaches_body hw hp.mem_rules s) ?_
        cases ht : c.tracesRules with
        | some hook =>
          rw [observed_rule_some ht] at hne ⊢
          exact Reaches.traced (fun s => ih hb i) (fun _ _ hs => hs.traces rfl rfl hook name _ _) hne
        | none =>
          rw [observed_rule_none ht] at hne ⊢
          exact ih hb i hne
      · rintro id body name own rfl s hne
        exact Reaches.traced (fun s => ih (hp.children (by simp [Parser.children])) i)
          (fun _ _ hs => hs.traces_logged rfl rfl rfl own name _ _) hne
    refine Reaches.succ ?_
    rwa [funext (Parsing.run_succ w c p i)] at hn

/-- Whatever a computation does, from a settled memory and after a record beside which hooks do the
same, the other one does: it is the meaning that is obeyed, up to the faults of suppliers that
refuse. -/
def Obeys (G : Grammar) (w : World) (refusals : RuleId → Nat) (x y : Run α) : Prop :=
  ∀ s s', G.SettledAt w refusals s'.tracing s →
    (x s).1.Meets
      (fun a => (y s').1 = .value a ∧ G.SettledAt w refusals (y s').2.tracing (x s).2)
      (fun fault => (∀ r, refusals r = 0) →
        (y s').1 = .raised fault ∧ w.Impartial (y s').2.tracing (x s).2.tracing) True

variable {refusals : RuleId → Nat}

theorem obeys_congruence :
    Parsing.Congruence fun (α : Type) (x y : Run α) => G.Obeys w refusals x y where
  done a s s' hs := ⟨rfl,hs⟩
  bind := by
    intro α β x y f g hx hf s s' hs
    have ha := hx s s' hs
    rw [Run.bind_apply,Run.bind_apply]
    rcases h : x s with ⟨a | fault | _,u⟩
    all_goals
      rw [h] at ha
      rcases hy : y s' with ⟨b,u'⟩
      rw [hy] at ha
    · obtain ⟨rfl,hu⟩ := ha
      exact hf a u u' hu
    · intro h0
      obtain ⟨rfl,hu⟩ := ha h0
      exact ⟨rfl,hu⟩
    · exact trivial
  raise fault s s' hs _ := ⟨rfl,hs.indifferent⟩
  exhaust _ _ _ := trivial

theorem Obeys.traced {x y : Run Outcome} (h : G.Obeys w refusals x y) {x' y' : Run Outcome}
    {inner : State → State} (ht : ∀ s s', w.Impartial s'.tracing s.tracing →
      Hooks.TracesBoth w.Impartial (· = ·) y x s' (inner s') s (y' s') (x' s)) :
    G.Obeys w refusals x' y' := by
  intro s s' hs
  cases ht s s' hs.indifferent with
  | hidden hr hr' =>
    rw [hr,hr']
    exact h s s' hs
  | stopped hr hr' _ _ hw =>
    rw [hr,hr']
    exact fun _ => ⟨rfl,hw⟩
  | @heard u told told' _ hm hu hr hr' hsame _ hum =>
    have ha := h u _ ⟨hm ▸ hs.settled,hu⟩
    rcases hx : x u with ⟨o | fault | _,v⟩
    all_goals rw [hx] at ha hr' hsame hum
    · obtain ⟨hy,hv⟩ := ha
      obtain ⟨rfl,hw⟩ := hsame (by rw [hy]; exact .value rfl) hv.indifferent
      rw [hr',hr,hy]
      rcases Answer.heard_cases told' (.value o) with he | ⟨fault,-,he⟩
      · rw [he]
        exact ⟨rfl,hum ▸ hv.settled,hw⟩
      · rw [he]
        exact fun _ => ⟨rfl,hw⟩
    · obtain ⟨fault',he⟩ := Answer.exists_heard_raised (α := Outcome) told' fault
      rw [hr',he,hr]
      intro h0
      obtain ⟨hy,hv⟩ := ha h0
      obtain ⟨rfl,hw⟩ := hsame (by rw [hy]; exact .raised fault) hv
      exact ⟨hy ▸ he,hw⟩
    · rw [hr']
      exact trivial

/-- A question obeys the answer that it must have. -/
theorem Asks.obeys {enough : Prop} {Q : List Frame → α → Prop} {x : Run α} {a : α}
    (h : G.Asks w refusals [] enough Q x) (hx : Rules.Untold x) (hQ : ∀ b, Q [] b → b = a) :
    G.Obeys w refusals x (pure a) := by
  intro s s' hs
  obtain ⟨hs',ha⟩ := h.settled hs.settled
  have hl : w.Impartial s'.tracing (x s).2.tracing := (hx s).symm ▸ hs.indifferent
  rcases hr : x s with ⟨b | fault | _,u⟩
  · rw [hr] at hs' ha hl
    obtain rfl := hQ b ha
    exact ⟨rfl,hs',hl⟩
  · rw [hr] at ha
    obtain ⟨r,-,k,hk,-⟩ := ha
    exact fun h0 => absurd hk (by simp [h0 r])
  · exact trivial

/-- What goes on with an answer that is known goes on with that answer. -/
theorem Obeys.next {x : Run α} {a : α} {f : α → Run β} {y : Run β}
    (hx : G.Obeys w refusals x (pure a)) (hf : G.Obeys w refusals (f a) y) :
    G.Obeys w refusals (x >>= f) y := by
  intro s s' hs
  have ha := hx s s' hs
  rw [Run.bind_apply]
  rcases h : x s with ⟨b | fault | _,u⟩
  · rw [h] at ha
    cases ha.1
    exact hf u s' ha.2
  · rw [h] at ha
    exact fun h0 => nomatch (ha h0).1
  · exact trivial

/-- What a parser does at some depth is its meaning at that depth. -/
theorem run_obeys (hw : G.Supplied w refusals) (n : Nat) {p : Parser} (hp : G.Has p) (i : Int) :
    G.Obeys w refusals (Parsing.run w c n p i) (G.means w c n p i) := by
  have hR : Parsing.Congruence fun (α : Type) (x y : Run α) => G.Obeys w refusals x y :=
    obeys_congruence
  induction n generalizing p i with
  | zero => exact fun _ _ _ => trivial
  | succ n ih =>
    refine hR.node c.text p i (fun q hq j => ih (hp.children hq) j) ?_ ?_ ?_ ?_
    · rintro id body next name v q rfl hq j
      exact ih (hp.next hq) j
    · rintro id parts rfl
      exact (parts_asks hw hp).obeys (Rules.untold_shape w n id parts)
        fun us hus => forall₂_exact hus
    · rintro r name rfl
      have ha : G.Asks w refusals [] True _ (Rules.body w r) := body_asks hw hp.mem_rules
      have hb := ih (G.closed r hp.mem_rules) i
      refine .next (ha.obeys (Rules.untold_body w r) fun p hp => hp) ?_
      cases ht : c.tracesRules with
      | some hook =>
        rw [observed_rule_some ht]
        exact hb.traced fun s s' hs => hs.traces rfl rfl hook name _ _
      | none =>
        rw [observed_rule_none ht]
        exact hb
    · rintro id body name own rfl
      exact (ih (hp.children (by simp [Parser.children])) i).traced fun s s' hs =>
        hs.traces_logged rfl rfl rfl own name _ _

/-- From a settled memory a computation gives no value but this one, and it leaves a settled memory;
what hooks raise does not matter. -/
def Attains (G : Grammar) (refusals : RuleId → Nat) (x : Run α) (y : Answer α) : Prop :=
  ∀ s, G.Settled refusals s.memory →
    G.Settled refusals (x s).2.memory ∧ ∀ a, (x s).1 = .value a → y = .value a

theorem Attains.next {x : Run α} {f : α → Run β} {y : Answer α} {g : α → Answer β}
    (hx : G.Attains refusals x y) (hf : ∀ a, y = .value a → G.Attains refusals (f a) (g a)) :
    G.Attains refusals (x >>= f) (y >>= g) := by
  intro s hs
  obtain ⟨hs',ha⟩ := hx s hs
  rw [Run.bind_apply]
  rcases h : x s with ⟨a | fault | _,u⟩
  all_goals rw [h] at hs' ha
  · obtain rfl := ha a rfl
    exact hf a rfl u hs'
  · exact ⟨hs',nofun⟩
  · exact ⟨hs',nofun⟩

theorem attains_congruence :
    Parsing.Congruence fun (α : Type) (x : Run α) (y : Answer α) => G.Attains refusals x y where
  done a s hs := ⟨hs,fun b hb => by cases hb; rfl⟩
  bind hx hf := hx.next fun a _ => hf a
  raise _ _ hs := ⟨hs,nofun⟩
  exhaust _ hs := ⟨hs,nofun⟩

theorem Attains.traced {x : Run Outcome} {y : Answer Outcome} (h : G.Attains refusals x y)
    (hook : HookId) (name : Text) (i : Int) :
    G.Attains refusals (Hooks.traced id w c hook name i x) y := by
  intro s hs
  cases Hooks.traced_traces w c hook name id i x s with
  | hidden _ hr =>
    rw [hr]
    exact h s hs
  | stopped _ _ ha hu =>
    rw [ha]
    exact ⟨hu ▸ hs,nofun⟩
  | @heard u _ _ _ _ hum _ ha hm =>
    obtain ⟨hu,hv⟩ := h u (hum ▸ hs)
    exact ⟨hm ▸ hu,fun a ho => hv a (Answer.heard_eq_value (ha.symm.trans ho))⟩

theorem Attains.logged {x : Run Outcome} {y : Answer Outcome} (h : G.Attains refusals x y)
    (own : Option HookId) (name : Text) (i : Int) :
    G.Attains refusals (Hooks.logged id w c own name i x) y :=
  fun s => h.traced (Hooks.chosen w own c.hook s.tracing.calls) name i s

theorem Asks.attains {enough : Prop} {Q : List Frame → α → Prop} {x : Run α} {a : α}
    (h : G.Asks w refusals [] enough Q x) (hQ : ∀ b, Q [] b → b = a) :
    G.Attains refusals x (pure a) := by
  intro s hs
  obtain ⟨hs',ha⟩ := h.settled hs
  refine ⟨hs',fun b hb => ?_⟩
  rw [hb] at ha
  rw [hQ b ha]
  rfl

/-- What a parser gives at some depth it does at that depth over its grammar, whatever the hooks
are. -/
theorem run_attains (hw : G.Supplied w refusals) (n : Nat) {p : Parser} (hp : G.Has p) (i : Int) :
    G.Attains refusals (Parsing.run w c n p i) (G.eval c.text n p i) := by
  have hR : Parsing.Congruence fun (α : Type) (x : Run α) (y : Answer α) =>
      G.Attains refusals x y := attains_congruence
  induction n generalizing p i with
  | zero => exact fun _ hs => ⟨hs,nofun⟩
  | succ n ih =>
    refine hR.node c.text p i (fun q hq j => ih (hp.children hq) j) ?_ ?_ ?_ ?_
    · rintro id body next name v q rfl hq j
      exact ih (hp.next hq) j
    · rintro id parts rfl
      exact (parts_asks hw hp).attains fun us hus => forall₂_exact hus
    · rintro r name rfl
      have ha : G.Asks w refusals [] True _ (Rules.body w r) := body_asks hw hp.mem_rules
      have hb := ih (G.closed r hp.mem_rules) i
      have hbody : G.Attains refusals (Rules.body w r) (.value (G.body r)) := ha.attains fun p hp => hp
      refine hbody.next (g := fun q => G.eval c.text n q i) fun q hq => ?_
      cases hq
      cases c.tracesRules with
      | some hook => exact hb.traced hook name i
      | none => exact hb
    · rintro id body name hook rfl
      exact (ih (hp.children (by simp [Parser.children])) i).logged hook name i

end Grammar
end Peg
