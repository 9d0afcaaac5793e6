import Peg.Proofs.Agreement
import Peg.Proofs.Asking
import Peg.Proofs.Bounds
import Peg.Proofs.Records

/-! Rules that are traced beside rules that are logged.
A grammar whose rules have logs around their bodies runs side by side with the same grammar without
them, whose rules are traced.  A log takes one level of nesting, so that the first one has to nest up
to twice as deep.  Main statement: both parses end alike, and their hooks are told the same, as long
as the hook of the parse counts as true and no hook looks at whether rules are traced. -/
namespace Peg

open Relation

/-- The clock moves on by the same at each reading. -/
def World.Ticks (w : World) : Prop := ∃ step, ∀ n, w.clock (n + 1) = w.clock n + step

/-- The body of a rule, with a log around it that has the name of the rule and no hook. -/
def Parser.ruleLog (names : RuleId → Text) (r : RuleId) (body : Parser) : Parser :=
  .log (.body r) body (names r) none

/-- The same world, whose suppliers give bodies with logs around them. -/
def World.withRuleLogs (names : RuleId → Text) (w : World) : World :=
  { w with supply := fun r n => (w.supply r n).map (Parser.ruleLog names r) }

@[simp] theorem World.supply_withRuleLogs (names : RuleId → Text) (w : World) (r : RuleId) (n : Nat) :
    (w.withRuleLogs names).supply r n = (w.supply r n).map (Parser.ruleLog names r) := rfl

/-- The same memory, with logs around the bodies. -/
def Memory.withRuleLogs (names : RuleId → Text) (m : Memory) : Memory :=
  { m with cell := fun r => { m.cell r with body := (m.cell r).body.map (Parser.ruleLog names r) } }

namespace Memory

variable (names : RuleId → Text) (m : Memory) (r : RuleId)

theorem withRuleLogs_setCell (c : RuleCell) : (m.setCell r c).withRuleLogs names =
    (m.withRuleLogs names).setCell r { c with body := c.body.map (Parser.ruleLog names r) } := by
  have hcell : ((m.setCell r c).withRuleLogs names).cell = ((m.withRuleLogs names).setCell r
      { c with body := c.body.map (Parser.ruleLog names r) }).cell := by
    funext s
    by_cases hs : s = r
    · subst hs
      simp [withRuleLogs]
    · simp [withRuleLogs,hs]
  simp only [withRuleLogs,setCell] at hcell ⊢
  rw [hcell]

theorem withRuleLogs_settle (u : Bool) :
    (m.settle r u).withRuleLogs names = (m.withRuleLogs names).settle r u := by
  have hframes : (m.withRuleLogs names).resolving = m.resolving := rfl
  unfold settle
  rw [hframes]
  cases m.resolving with
  | nil => rfl
  | cons f fs =>
    by_cases hf : f.low < fs.length
    · simp only [hf,if_true]
      rfl
    · simp only [hf,if_false]
      have hset := withRuleLogs_setCell names m r { m.cell r with unit := some u }
      exact congrArg (fun m' : Memory => { m' with resolving := fs }) hset

end Memory

/-- The same place in parses that differ at most in whether rules are traced. -/
def Context.Ruled (p q : Context × Int) : Prop :=
  q.1.text = p.1.text ∧ q.1.hook = p.1.hook ∧
    q.1.config.map Config.maxDepth = p.1.config.map Config.maxDepth ∧ q.2 = p.2

theorem Context.Ruled.hides {c c' : Context} {i i' : Int} (h : Ruled (c,i) (c',i')) (depth : Nat) :
    Config.hides c'.config depth = Config.hides c.config depth := by
  have hdepth : c'.config.map Config.maxDepth = c.config.map Config.maxDepth := h.2.2.1
  have hhides (config : Option Config) :
      Config.hides config depth = ((config.map Config.maxDepth).getD none).any (· < (depth : Int)) := by
    cases config <;> rfl
  rw [hhides,hhides,hdepth]

/-- The same happens in parses that differ at most in whether rules are traced; nodes take as long
where the clock ticks evenly. -/
abbrev Happening.Ruled (even : Prop) : Happening → Happening → Prop :=
  Like Context.Ruled (· = ·) fun d d' => even → d' = d

/-- Since two states a parse with logs around the rules came as far as one without them: the same is
remembered but for these logs, the same calls were made, and the clock was read as often. -/
structure State.Beside (w : World) (names : RuleId → Text) (s₀ s₀' s s' : State) : Prop where
  memory : s'.memory = s.memory.withRuleLogs names
  supplied : s.memory.Supplied w
  twins : s.tracing.Twins (Happening.Ruled w.Ticks) s'.tracing
  readings : s'.tracing.readings + s₀.tracing.readings =
    s.tracing.readings + s₀'.tracing.readings

namespace State.Beside

variable {w : World} {names : RuleId → Text} {s₀ s₀' s s' : State}

theorem mapMemory (h : s₀.Beside w names s₀' s s') (f f' : Memory → Memory)
    (hf : f' (s.memory.withRuleLogs names) = (f s.memory).withRuleLogs names)
    (hs : s.memory.Supplied w → (f s.memory).Supplied w) :
    s₀.Beside w names s₀' (s.mapMemory f) (s'.mapMemory f') where
  memory := by rw [memory_mapMemory,memory_mapMemory,h.memory,hf]
  supplied := hs h.supplied
  twins := h.twins
  readings := h.readings

end State.Beside

/-- A computation of some depth beside the one with logs around the rules.  If the first one ends and
the second one is twice as deep, or the second one ends and the first one is as deep, they end
alike. -/
def Run.Agrees (w : World) (names : RuleId → Text) (s₀ s₀' : State) (n m : Nat) (α : Type)
    (x y : Run α) : Prop :=
  ∀ s s', s₀.Beside w names s₀' s s' →
    2 * n ≤ m ∧ (x s).1 ≠ .exhausted ∨ m ≤ n ∧ (y s').1 ≠ .exhausted →
      (y s').1 = (x s).1 ∧ s₀.Beside w names s₀' (x s).2 (y s').2

namespace Run

variable {w : World} {names : RuleId → Text} {s₀ s₀' : State} {n m : Nat} {α β : Type}

theorem bind_ne_exhausted {x : Run α} {f : α → Run β} {s : State}
    (h : ((x >>= f) s).1 ≠ .exhausted) : (x s).1 ≠ .exhausted := by
  intro hx
  have hbind := bind_of_exhausted (f := f) (Prod.ext hx rfl)
  exact h (congrArg Prod.fst hbind)

theorem agrees_done (a : α) : Agrees w names s₀ s₀' n m α (pure a) (pure a) :=
  fun _ _ h _ => ⟨rfl,h⟩

theorem agrees_raise (fault : Fault) :
    Agrees w names s₀ s₀' n m α (Run.raise fault) (Run.raise fault) :=
  fun _ _ h _ => ⟨rfl,h⟩

/-- What matters of the depths is which of them is enough for the other. -/
theorem Agrees.mono {n' m' : Nat} {x y : Run α} (h : Agrees w names s₀ s₀' n m α x y)
    (hn : 2 * n' ≤ m' → 2 * n ≤ m) (hm : m' ≤ n' → m ≤ n) : Agrees w names s₀ s₀' n' m' α x y :=
  fun s s' hs hends => h s s' hs (hends.imp (And.imp_left hn) (And.imp_left hm))

theorem Agrees.bind {x y : Run α} {f g : α → Run β} (hx : Agrees w names s₀ s₀' n m α x y)
    (hf : ∀ a, Agrees w names s₀ s₀' n m β (f a) (g a)) :
    Agrees w names s₀ s₀' n m β (x >>= f) (y >>= g) := by
  intro s s' hs hends
  obtain ⟨ha,hu⟩ := hx s s' hs (hends.imp (And.imp_right bind_ne_exhausted)
    (And.imp_right bind_ne_exhausted))
  rw [bind_apply,bind_apply] at hends ⊢
  rcases hx' : x s with ⟨a | fault | _,u⟩
  all_goals
    rcases hy' : y s' with ⟨b,u'⟩
    rw [hx',hy'] at ha hu
    simp only at ha
    subst ha
    simp only [hx',hy'] at hends ⊢
  · exact hf a u u' hu hends
  · exact ⟨trivial,hu⟩
  · exact ⟨trivial,hu⟩

/-- One that may not nest is beside anything, unless the other is deep enough for it to end. -/
theorem Agrees.starved {x : Run α} (h : m < 2 * n) : Agrees w names s₀ s₀' n m α x Run.exhaust := by
  rintro s s' - (⟨hle,-⟩ | ⟨-,hy⟩)
  · omega
  · exact absurd rfl hy

theorem Agrees.starved' {y : Run α} (h : n < m) : Agrees w names s₀ s₀' n m α Run.exhaust y := by
  rintro s s' - (⟨-,hx⟩ | ⟨hle,-⟩)
  · exact absurd rfl hx
  · omega

theorem agrees_exhaust : Agrees w names s₀ s₀' n m α Run.exhaust Run.exhaust := by
  rintro s s' hs -
  exact ⟨rfl,hs⟩

theorem agrees_asking (w : World) (names : RuleId → Text) (s₀ s₀' : State) (n m : Nat) :
    Rules.Asking (Agrees w names s₀ s₀' n m) where
  done := agrees_done
  bind := .bind
  raise := agrees_raise
  exhaust := agrees_exhaust
  known id := by
    intro s s' hs _
    refine ⟨?_,hs⟩
    rw [get_apply,get_apply,hs.memory]
    rfl
  pending := by
    intro s s' hs _
    refine ⟨?_,hs⟩
    rw [get_apply,get_apply,hs.memory]
    rfl
  keep id units s s' hs _ :=
    ⟨rfl,hs.mapMemory (·.setShape id units) (·.setShape id units) rfl fun h => h⟩

end Run

namespace Rules

open Run

variable {w : World} {names : RuleId → Text} {s₀ s₀' : State} {n m : Nat} {α : Type}

/-- What goes on with the body of a rule goes on with the log around it. -/
theorem agrees_body {r : RuleId} {f g : Parser → Run α}
    (h : ∀ p k, w.supply r k = .ok p →
      Agrees w names s₀ s₀' n m α (f p) (g (p.ruleLog names r))) :
    Agrees w names s₀ s₀' n m α (body w r >>= f) (body (w.withRuleLogs names) r >>= g) := by
  intro s s' hs hends
  have hcell : s'.memory.cell r = { s.memory.cell r with
      body := (s.memory.cell r).body.map (Parser.ruleLog names r) } := by
    rw [hs.memory]
    rfl
  cases hb : (s.memory.cell r).body with
  | some p =>
    obtain ⟨k,hk⟩ := hs.supplied r p hb
    have hb' : (s'.memory.cell r).body = some (p.ruleLog names r) := by
      rw [hcell,hb]
      rfl
    rw [bind_of_value (body_known hb),bind_of_value (body_known hb')] at hends ⊢
    exact h p k hk s s' hs hends
  | none =>
    have hb' : (s'.memory.cell r).body = none := by
      rw [hcell,hb]
      rfl
    have hcalls : (s'.memory.cell r).calls = (s.memory.cell r).calls := by rw [hcell]
    have hset (c : RuleCell) (hgiven : ∀ p, c.body = some p → ∃ n, w.supply r n = .ok p) :
        s₀.Beside w names s₀' (s.mapMemory (·.setCell r c)) (s'.mapMemory (·.setCell r
          { c with body := c.body.map (Parser.ruleLog names r) })) :=
      hs.mapMemory (·.setCell r c) _ (Memory.withRuleLogs_setCell names s.memory r c).symm
        fun hsupplied => (hsupplied.uncut.setCell hgiven).supplied
    cases hp : w.supply r (s.memory.cell r).calls with
    | ok p =>
      have hp' : (w.withRuleLogs names).supply r (s'.memory.cell r).calls =
          .ok (p.ruleLog names r) := by
        rw [World.supply_withRuleLogs,hcalls,hp]
        rfl
      have hgiven := hset { s.memory.cell r with calls := (s.memory.cell r).calls + 1, body := some p }
      rw [bind_of_value (body_supplied hb hp),bind_of_value (body_supplied hb' hp')] at hends ⊢
      rw [hcell] at hends ⊢
      apply h p _ hp _ _ (hgiven _) hends
      rintro _ ⟨⟩
      exact ⟨_,hp⟩
    | error fault =>
      have hp' : (w.withRuleLogs names).supply r (s'.memory.cell r).calls = .error fault := by
        rw [World.supply_withRuleLogs,hcalls,hp]
        rfl
      have hrefused := hset { s.memory.cell r with calls := (s.memory.cell r).calls + 1 }
      rw [bind_of_raised (body_refused hb hp),bind_of_raised (body_refused hb' hp'),hcell]
      exact ⟨rfl,hrefused (hs.supplied r)⟩

theorem agrees_resolve {unit unit' : Parser → Run Bool} {r : RuleId}
    (h : ∀ p k, w.supply r k = .ok p →
      Agrees w names s₀ s₀' n m _ (unit p) (unit' (p.ruleLog names r))) :
    Agrees w names s₀ s₀' n m _ (resolve w unit r)
      (resolve (w.withRuleLogs names) unit' r) := by
  intro s s' hs hends
  have hunit : (s'.memory.cell r).unit = (s.memory.cell r).unit := by
    rw [hs.memory]
    rfl
  have hframes : s'.memory.resolving = s.memory.resolving := by
    rw [hs.memory]
    rfl
  cases hu : (s.memory.cell r).unit with
  | some u =>
    rw [resolve_known hu,resolve_known (hunit.trans hu)]
    exact ⟨rfl,hs⟩
  | none =>
    have hu' := hunit.trans hu
    cases hp : Memory.placeOf r s.memory.resolving with
    | some low =>
      have hp' : Memory.placeOf r s'.memory.resolving = some low := by rw [hframes,hp]
      rw [resolve_guessed hu hp,resolve_guessed hu' hp']
      let rely (m : Memory) : Memory := { m with resolving := Memory.relyOn low m.resolving }
      exact ⟨rfl,hs.mapMemory rely rely rfl fun h => h⟩
    | none =>
      have hp' : Memory.placeOf r s'.memory.resolving = none := by rw [hframes,hp]
      have henter : s₀.Beside w names s₀' (s.mapMemory (·.enter r)) (s'.mapMemory (·.enter r)) :=
        hs.mapMemory (·.enter r) _ rfl fun h => h
      have hasked := agrees_body h _ _ henter
      rcases hx : (body w r >>= unit) (s.mapMemory (·.enter r)) with ⟨a,u⟩
      rcases hy : (body (w.withRuleLogs names) r >>= unit') (s'.mapMemory (·.enter r)) with ⟨b,u'⟩
      rw [hx,hy] at hasked
      -- a question ends when what it asks does
      have hends' : 2 * n ≤ m ∧ a ≠ .exhausted ∨ m ≤ n ∧ b ≠ .exhausted := by
        refine hends.imp (And.imp_right fun hne ha => hne ?_) (And.imp_right fun hne hb => hne ?_)
        · subst ha
          rw [resolve_exhausted hu hp hx]
        · subst hb
          rw [resolve_exhausted hu' hp' hy]
      obtain ⟨hab,hbeside⟩ := hasked hends'
      simp only at hab hbeside
      subst hab
      rcases b with answer | fault | _
      · rw [resolve_answered hu hp hx,resolve_answered hu' hp' hy]
        have hsettle := (Memory.withRuleLogs_settle names u.memory r answer).symm
        exact ⟨rfl,hbeside.mapMemory (·.settle r answer) (·.settle r answer) hsettle
          ((allows_supplied w).settle u r answer)⟩
      · rw [resolve_raised hu hp hx,resolve_raised hu' hp' hy]
        exact ⟨rfl,hbeside.mapMemory Memory.leave _ rfl fun h => h⟩
      · rw [resolve_exhausted hu hp hx,resolve_exhausted hu' hp' hy]
        exact ⟨rfl,hbeside.mapMemory Memory.leave _ rfl fun h => h⟩

/-- The same is answered for a parser. -/
theorem agrees_isUnit (n m : Nat) (p : Parser) :
    Agrees w names s₀ s₀' n m _ (isUnit w n p) (isUnit (w.withRuleLogs names) m p) := by
  induction n generalizing m p with
  | zero =>
    cases m with
    | zero => exact agrees_exhaust
    | succ m => exact .starved' (by omega)
  | succ n ih =>
    cases m with
    | zero => exact .starved (by omega)
    | succ m =>
      apply (agrees_asking w names s₀ s₀' (n + 1) (m + 1)).isUnit p
      · exact fun q _ => (ih m q).mono (by omega) (by omega)
      · intro r name _
        refine agrees_resolve fun body k _ => ?_
        cases m with
        | zero => exact .starved (by omega)
        -- the log around the body is one more node to ask through
        | succ m => exact (ih m body).mono (by omega) (by omega)

end Rules

section Nodes

open Hooks

variable {w : World} {names : RuleId → Text} {s₀ s₀' s s' : State} {c c' : Context} {i : Int}

/-- A clock that ticks evenly measures the same between the same readings. -/
theorem Hooks.duration_eq (hclock : w.Ticks) {u u' : State} {k l : Nat}
    (hs : s'.tracing.readings + k = s.tracing.readings + l)
    (hu : u'.tracing.readings + k = u.tracing.readings + l) :
    duration w s' u' = duration w s u := by
  obtain ⟨step,hclock⟩ := hclock
  have hticks (a k : Nat) : w.clock (a + k) = w.clock a + (w.clock k - w.clock 0) := by
    induction k with
    | zero =>
      rw [Nat.add_zero]
      grind
    | succ k ih =>
      rw [← Nat.add_assoc,hclock,hclock,ih]
      grind
  have hsame : u'.tracing.readings + s.tracing.readings =
      u.tracing.readings + s'.tracing.readings := by omega
  have hclocks := hticks u'.tracing.readings s.tracing.readings
  rw [hsame,hticks] at hclocks
  rw [duration,duration]
  grind

/-- A node that is traced in both computations is told of in the same way. -/
theorem Run.Agrees.traced {n m : Nat} {x y : Run Outcome}
    (h : Agrees w names s₀ s₀' n m _ x y) {hook hook' : HookId} (hsame : hook' = hook)
    (hh : (w.hook hook).Follows (Call.Twin (Happening.Ruled w.Ticks)))
    (hc : Context.Ruled (c,i) (c',i)) (name : Text) (hs : s₀.Beside w names s₀' s s')
    (hends : 2 * n ≤ m ∧ (Hooks.traced id w c hook name i x s).1 ≠ .exhausted ∨
      m ≤ n ∧ (Hooks.traced id (w.withRuleLogs names) c' hook' name i y s').1 ≠ .exhausted) :
    (Hooks.traced id (w.withRuleLogs names) c' hook' name i y s').1 =
        (Hooks.traced id w c hook name i x s).1 ∧
      s₀.Beside w names s₀' (Hooks.traced id w c hook name i x s).2
        (Hooks.traced id (w.withRuleLogs names) c' hook' name i y s').2 := by
  subst hook'
  have hlast (a b : Answer Outcome) (u u' : State) (hab : a.Like (· = ·) b)
      (hu : u'.tracing.readings + s₀.tracing.readings =
        u.tracing.readings + s₀'.tracing.readings) :
      Option.Rel (Happening.Ruled w.Ticks)
        (a.happening? id c i s.tracing.depth (duration w s u))
        (b.happening? id c' i s.tracing.depth (duration (w.withRuleLogs names) s' u')) :=
    hab.happening? (fun _ _ h => h) hc _ fun hclock => duration_eq hclock hs.readings hu
  have hw : (w.withRuleLogs names).hook = w.hook := rfl
  have htraces := traces_inStep
    (R := fun k l => l + s₀.tracing.readings = k + s₀'.tracing.readings) hw hh
    (fun k l h => by omega) ⟨hs.twins,hs.readings⟩ (.entered hc) (hc.hides _) hlast name x y
  cases htraces with
  | hidden hr hr' =>
    rw [hr,hr'] at hends ⊢
    exact h s s' hs hends
  | stopped hr hr' hm hm' hw =>
    rw [hr,hr']
    exact ⟨rfl,by rw [hm,hm']; exact hs.memory,hm ▸ hs.supplied,hw.toTwins,hw.readings⟩
  | @heard v _ _ hm hm' hin hr hr' hsame hum hvm =>
    rw [hr,hr'] at hends
    have hends' : 2 * n ≤ m ∧ (x (inside w c hook name i s)).1 ≠ .exhausted ∨
        m ≤ n ∧ (y v).1 ≠ .exhausted := by
      refine hends.imp (And.imp_right fun hne ha => hne ?_) (And.imp_right fun hne hb => hne ?_)
      · rw [ha]
        rfl
      · rw [hb]
        rfl
    obtain ⟨hab,hu⟩ := h _ v
      ⟨by rw [hm,hm']; exact hs.memory,hm ▸ hs.supplied,hin.toTwins,hin.readings⟩ hends'
    obtain ⟨htold,hw⟩ := hsame (hab ▸ .self (fun _ => rfl) _) ⟨hu.twins,hu.readings⟩
    rw [hr,hr',hab,htold]
    exact ⟨rfl,by rw [← hum,← hvm]; exact hu.memory,hum ▸ hu.supplied,hw.toTwins,hw.readings⟩

end Nodes

namespace Parsing

open Run

variable {w : World} {names : RuleId → Text} {p : Parser}

/-- A node whose rules are traced runs as it does with its rules logged. -/
theorem run_agrees (hh : ∀ hook, (w.hook hook).Follows (Call.Twin (Happening.Ruled w.Ticks)))
    {hook : HookId} (htrue : ∀ calls, (w.hook hook).truth calls = true)
    (hnames : ∀ r name, ReflTransGen w.Leads p (.rule r name) → name = names r)
    (t : Text) (maxDepth : Option Int) (s₀ s₀' : State) (n m : Nat) (i : Int) :
    Agrees w names s₀ s₀' n m _ (run w ⟨t,some hook,some ⟨true,maxDepth⟩⟩ n p i)
      (run (w.withRuleLogs names) ⟨t,some hook,some ⟨false,maxDepth⟩⟩ m p i) := by
  induction n generalizing m p i with
  | zero =>
    cases m with
    | zero => exact agrees_exhaust
    | succ m => exact .starved' (by omega)
  | succ n ih =>
    cases m with
    | zero => exact .starved (by omega)
    | succ m =>
      have hlead {q : Parser} (hq : w.Leads p q) (k : Nat) (j : Int) := ih (p := q)
        (fun r name hr => hnames r name (.head hq hr)) k j
      have hbelow {q : Parser} (hq : w.Leads p q) (j : Int) : Agrees w names s₀ s₀' (n + 1) (m + 1) _
          (run w ⟨t,some hook,some ⟨true,maxDepth⟩⟩ n q j)
          (run (w.withRuleLogs names) ⟨t,some hook,some ⟨false,maxDepth⟩⟩ m q j) :=
        (hlead hq m j).mono (by omega) (by omega)
      have hcontext : Context.Ruled (⟨t,some hook,some ⟨true,maxDepth⟩⟩,i)
          (⟨t,some hook,some ⟨false,maxDepth⟩⟩,i) := ⟨rfl,rfl,rfl,rfl⟩
      have hR := agrees_asking w names s₀ s₀' (n + 1) (m + 1)
      apply hR.node t p i
      · exact fun q hq j => hbelow (.child hq) j
      · rintro id body next name v q rfl hq j
        exact hbelow (.next hq) j
      · intro id parts _
        apply hR.shape id
        exact fun q _ => (Rules.agrees_isUnit n m q).mono (by omega) (by omega)
      · rintro r name rfl
        refine Rules.agrees_body fun body k hbody => ?_
        cases m with
        | zero => exact .starved (by omega)
        | succ m =>
          obtain rfl : name = names r := hnames r name .refl
          -- the traced rule stands beside the log, and its body beside the body of the log
          have hinside : Agrees w names s₀ s₀' (n + 1) (m + 2) _
              (run w ⟨t,some hook,some ⟨true,maxDepth⟩⟩ n body i)
              (run (w.withRuleLogs names) ⟨t,some hook,some ⟨false,maxDepth⟩⟩ m body i) :=
            (hlead (.body hbody) m i).mono (by omega) (by omega)
          intro s s' hs hends
          have hchosen : Hooks.chosen (w.withRuleLogs names) none (some hook) s'.tracing.calls =
              hook := by
            simp [Hooks.chosen,World.withRuleLogs,Option.filter,htrue]
          exact hinside.traced hchosen (hh hook) hcontext (names r) hs hends
      · rintro id body name own rfl
        have hbody : w.Leads (.log id body name own) body := .child (by simp [Parser.children])
        intro s s' hs hends
        have hchosen : Hooks.chosen (w.withRuleLogs names) own (some hook) s'.tracing.calls =
            Hooks.chosen w own (some hook) s.tracing.calls :=
          Hooks.chosen_twin rfl hh hs.twins own (some hook)
        exact (hbelow hbody i).traced hchosen (hh _) hcontext name hs hends

/-- A parse whose rules are traced ends as one whose rules are logged, and hooks are told the same; how
long nodes take is the same if the clock ticks evenly. -/
theorem parse_rules_as_logged
    (hh : ∀ hook, (w.hook hook).Follows (Call.Twin (Happening.Ruled w.Ticks))) {hook : HookId}
    (htrue : ∀ calls, (w.hook hook).truth calls = true)
    (hnames : ∀ r name, ReflTransGen w.Leads p (.rule r name) → name = names r) (t : Text) (i : Int)
    (maxDepth : Option Int) {s s' : State} (hs : s.memory.Supplied w)
    (hm : s'.memory = s.memory.withRuleLogs names)
    (hcalls : List.Forall₂ (Call.Twin (Happening.Ruled w.Ticks)) s.tracing.calls s'.tracing.calls)
    {limit limit' : Nat}
    (hends : 2 * limit ≤ limit' ∧
        (parse w limit p t i (some hook) (some ⟨true,maxDepth⟩) s).1 ≠ .exhausted ∨
      limit' ≤ limit ∧ (parse (w.withRuleLogs names) limit' p t i (some hook)
        (some ⟨false,maxDepth⟩) s').1 ≠ .exhausted) :
    let r := parse w limit p t i (some hook) (some ⟨true,maxDepth⟩) s
    let r' := parse (w.withRuleLogs names) limit' p t i (some hook) (some ⟨false,maxDepth⟩) s'
    r'.1 = r.1 ∧ r'.2.memory = r.2.memory.withRuleLogs names ∧
      List.Forall₂ (Call.Twin (Happening.Ruled w.Ticks)) r.2.tracing.calls r'.2.tracing.calls := by
  have hstart : (s.setDepth 0).Beside w names (s'.setDepth 0) (s.setDepth 0) (s'.setDepth 0) :=
    ⟨hm,hs,⟨hcalls,rfl⟩,Nat.add_comm ..⟩
  obtain ⟨ha,hu⟩ := run_agrees hh htrue hnames t maxDepth (s.setDepth 0) (s'.setDepth 0) limit limit'
    i (s.setDepth 0) (s'.setDepth 0) hstart hends
  exact ⟨ha,hu.memory,hu.twins.calls⟩

/-- A letter in parentheses, where what stands inside reports to a hook of its own. -/
def watchedNest : Parser := .choice [group,letter]
where
  nest : Parser := .rule (.numbered 0) "nest".toList
  inside : Parser := .log (.statement 4) nest "inside".toList (some (.numbered 1))
  opening : Parser := .word (.statement 2) "(".toList
  closing : Parser := .word (.statement 3) ")".toList
  group : Parser := .seq (.statement 0) [opening,.cut inside,closing]
  letter : Parser := .word (.statement 1) "x".toList
  nodes : List Parser := [nest,watchedNest,group,letter,opening,.cut inside,inside,closing]

theorem watchedNest.children_subset_nodes {p : Parser} (hp : p ∈ nodes) : p.children ⊆ nodes := by
  simp only [nodes,List.mem_cons,List.not_mem_nil,or_false] at hp
  have hbranches : [group,letter] ⊆ nodes := by simp [nodes]
  have hparts : [opening,.cut inside,closing] ⊆ nodes := by simp [nodes]
  have hbody : [inside] ⊆ nodes := by simp [nodes]
  have hrule : [nest] ⊆ nodes := by simp [nodes]
  have hleaf : [] ⊆ nodes := List.nil_subset nodes
  rcases hp with rfl | rfl | rfl | rfl | rfl | rfl | rfl | rfl
  · exact hleaf
  · exact hbranches
  · exact hparts
  · exact hleaf
  · exact hleaf
  · exact hbody
  · exact hrule
  · exact hleaf

theorem watchedNest_names {hook : HookId → Hook} {clock : Nat → Rat} {r : RuleId} {name : Text}
    (h : ReflTransGen (World.Leads ⟨fun _ _ => .ok watchedNest,hook,clock⟩) watchedNest.nest
      (.rule r name)) : name = "nest".toList := by
  have hr : Parser.rule r name ∈ watchedNest.nodes := by
    refine World.reached_of_closed (· ∈ watchedNest.nodes) (by simp [watchedNest.nodes])
      (fun p q hp hl => ?_) h
    cases hl with
    | child hq => exact watchedNest.children_subset_nodes hp hq
    | body hq =>
      obtain rfl := Except.ok.inj hq
      simp [watchedNest.nodes]
    | next =>
      simp [watchedNest,watchedNest.nodes,watchedNest.inside,watchedNest.nest,watchedNest.group,
        watchedNest.letter,watchedNest.opening,watchedNest.closing,Parser.word] at hp
  simp [watchedNest,watchedNest.nodes,watchedNest.inside,watchedNest.nest,watchedNest.group,
    watchedNest.letter,watchedNest.opening,watchedNest.closing,Parser.word] at hr
  exact hr.2

theorem parse_watchedNest_as_logged :
    let w : World := ⟨fun _ _ => .ok watchedNest,fun _ => .recording none,fun n => n⟩
    let r := parse w 12 watchedNest.nest "(x)".toList 0 (some .standard) (some ⟨true,some 2⟩) {}
    let r' := parse (w.withRuleLogs fun _ => "nest".toList) 24 watchedNest.nest "(x)".toList 0
      (some .standard) (some ⟨false,some 2⟩) {}
    (r.1 matches .value (.success .none 3 false)) = true ∧ r.2.tracing.calls.length = 6 ∧
      r'.1 = r.1 ∧
      List.Forall₂ (Call.Twin (Happening.Like Context.Ruled (· = ·) fun d d' => d' = d))
        r.2.tracing.calls r'.2.tracing.calls := by
  intro w
  have ho : ((parse w 12 watchedNest.nest "(x)".toList 0 (some .standard) (some ⟨true,some 2⟩)
      {}).1 matches .value (.success .none 3 false)) = true := by decide +kernel
  have hne : (parse w 12 watchedNest.nest "(x)".toList 0 (some .standard) (some ⟨true,some 2⟩)
      {}).1 ≠ .exhausted := by
    intro h
    rw [h] at ho
    cases ho
  have hticks : w.Ticks := ⟨1,fun n => Rat.natCast_add n 1⟩
  have hfollows (hook : HookId) : (w.hook hook).Follows (Call.Twin (Happening.Ruled w.Ticks)) :=
    (Hook.follows_recording none).mono fun _ _ h => h.imp fun _ _ hh =>
      hh.imp (fun _ _ _ => trivial) (fun _ _ _ => trivial) fun _ _ _ => trivial
  obtain ⟨ha,-,hcalls⟩ := @parse_rules_as_logged w (fun _ => "nest".toList) watchedNest.nest hfollows
    .standard (fun _ => rfl) (fun _ _ => watchedNest_names) "(x)".toList 0 (some 2) {} {}
    (Memory.supplied_new w) rfl .nil 12 24 (.inl ⟨by decide,hne⟩)
  refine ⟨ho,by decide +kernel,ha,hcalls.imp fun _ _ h => h.imp fun _ _ hh => ?_⟩
  exact hh.imp (fun _ _ h => h) (fun _ _ h => h) fun _ _ h => h hticks

/-- A hook that raises when it is told of a node in a parse that traces rules. -/
def againstRules : Hook where
  shows _ _ := []
  answer _ call :=
    match call.happening with
    | .entered c _ _ => if c.tracesRules.isSome then .error (.raisedByHook "rules".toList) else .ok none
    | _ => .ok none

/-- A hook that looks at whether rules are traced raises for the rule and not for the log.  A hook that
counts as false is told of the rule, while the standard hook is told of the log in its place.  And
where there is no hook at all nobody is told of the rule, and the standard hook is told of the
log. -/
theorem rule_told_unlike_log :
    let world (hook : Hook) : World :=
      ⟨fun _ _ => .ok (.word (.named "a") "a".toList),fun _ => hook,fun n => n⟩
    let rule : Parser := .rule (.numbered 0) "a".toList
    let parsed (hook : Hook) (given : Option HookId) (rules : Bool) :=
      parse (if rules then world hook else (world hook).withRuleLogs fun _ => "a".toList) 9 rule
        "a".toList 0 given (some ⟨rules,none⟩) {}
    let told (hook : Hook) (given : Option HookId) (rules : Bool) :=
      (parsed hook given rules).2.tracing.calls.map Call.hook
    let falsy : Hook := { Hook.recording none with truth := fun _ => false }
    let own : HookId := .numbered 0
    (parsed againstRules (some own) true).1 = .raised (.raisedByHook "rules".toList) ∧
      (parsed againstRules (some own) false).1 = .value (.success .none 1 false) ∧
      told falsy (some own) true = [own,own] ∧ told falsy (some own) false = [.standard,.standard] ∧
      told (.recording none) none true = [] ∧
      told (.recording none) none false = [.standard,.standard] :=
  ⟨rfl,rfl,rfl,rfl,rfl,rfl⟩

end Parsing
end Peg
