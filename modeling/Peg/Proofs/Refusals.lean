import Peg.Proofs.Asking
import Peg.Proofs.Sessions

/-! Suppliers that refuse.
A supplier that refuses ends whatever needed the body; the rule stays without one, and whatever else
was remembered before that is the truth.  Main statement: in any session what reaches a supplier that
refuses raises its fault and leaves no question open, and what is answered is what is answered where
no supplier ever refuses. -/
namespace Peg

/-- What can happen to what is known of a rule while its supplier does not refuse: its body stays as
it is, or is built. -/
inductive World.Learns (w : World) (r : RuleId) (c c' : RuleCell) : Prop
  | stays : c'.calls = c.calls → c'.body = c.body → Learns w r c c'
  | builds {p : Parser} : c.body = none → w.supply r c.calls = .ok p → c'.calls = c.calls + 1 →
    c'.body = some p → Learns w r c c'

/-- No supplier refused from one memory to another. -/
def Memory.Learned (w : World) (m m' : Memory) : Prop := ∀ r, w.Learns r (m.cell r) (m'.cell r)

/-- The supplier of a rule was called once and refused, and no other one refused. -/
structure Memory.Stopped (w : World) (r : RuleId) (fault : Fault) (m m' : Memory) : Prop where
  missing : (m.cell r).body = none
  refused : w.supply r (m.cell r).calls = .error fault
  calls : (m'.cell r).calls = (m.cell r).calls + 1
  unbuilt : (m'.cell r).body = none
  others : ∀ s ≠ r, w.Learns s (m.cell s) (m'.cell s)

/-- What becomes of a fault that passes through traced nodes: it stays as it is, unless a hook that is
told of it raises in its place. -/
def World.Passes (w : World) (fault fault' : Fault) : Prop :=
  fault' = fault ∨ ∃ hook before call, call.happening.occasion = .error ∧
    (w.hook hook).fault? before call = some fault'

variable {w : World}

theorem World.Learns.trans {r : RuleId} {c c' c'' : RuleCell} (h : w.Learns r c c')
    (h' : w.Learns r c' c'') : w.Learns r c c'' := by
  cases h with
  | stays hcalls hbody =>
    cases h' with
    | stays hcalls' hbody' => exact .stays (hcalls'.trans hcalls) (hbody'.trans hbody)
    | builds hnone hp hcalls' hbody' =>
      rw [hcalls] at hp hcalls'
      exact .builds (hbody ▸ hnone) hp hcalls' hbody'
  | builds hnone hp hcalls hbody =>
    cases h' with
    | stays hcalls' hbody' => exact .builds hnone hp (hcalls'.trans hcalls) (hbody'.trans hbody)
    | builds hnone' =>
      rw [hbody] at hnone'
      cases hnone'

namespace Memory

variable {m m' m'' : Memory} {r : RuleId} {fault : Fault}

theorem Learned.refl (w : World) (m : Memory) : m.Learned w m := fun _ => .stays rfl rfl

theorem Learned.trans (h : Learned w m m') (h' : Learned w m' m'') : Learned w m m'' :=
  fun r => (h r).trans (h' r)

theorem Learned.of_cell (h : ∀ r, (m'.cell r).calls = (m.cell r).calls ∧
    (m'.cell r).body = (m.cell r).body) : Learned w m m' :=
  fun r => .stays (h r).1 (h r).2

/-- A body that is missing after a while in which no supplier refused was missing all the time. -/
theorem Learned.stopped (h : Learned w m m') (h' : Stopped w r fault m' m'') :
    Stopped w r fault m m'' := by
  cases h r with
  | stays hcalls hbody =>
    refine ⟨hbody ▸ h'.missing,hcalls ▸ h'.refused,hcalls ▸ h'.calls,h'.unbuilt,fun s hs => ?_⟩
    exact (h s).trans (h'.others s hs)
  | builds _ _ _ hbody =>
    have hmissing := h'.missing
    rw [hbody] at hmissing
    cases hmissing

theorem Stopped.of_cell (h : Stopped w r fault m m')
    (hc : ∀ s, (m''.cell s).calls = (m'.cell s).calls ∧ (m''.cell s).body = (m'.cell s).body) :
    Stopped w r fault m m'' := by
  refine ⟨h.missing,h.refused,(hc r).1.trans h.calls,(hc r).2.trans h.unbuilt,fun s hs => ?_⟩
  exact (h.others s hs).trans (.stays (hc s).1 (hc s).2)

theorem cell_settle (m : Memory) (r : RuleId) (u : Bool) (s : RuleId) :
    ((m.settle r u).cell s).calls = (m.cell s).calls ∧
      ((m.settle r u).cell s).body = (m.cell s).body := by
  unfold settle
  cases m.resolving with
  | nil => exact ⟨rfl,rfl⟩
  | cons f fs =>
    by_cases hf : f.low < fs.length
    · simp [hf]
    · by_cases hs : s = r
      · simp [hf,hs]
      · simp [hf,hs]

end Memory

namespace Run

variable {α β : Type}

/-- A computation in which no supplier refuses, or which a supplier ends that does: it raises its
fault, or what a hook raises in its place. -/
def Reports (w : World) (x : Run α) : Prop :=
  ∀ s, s.memory.Learned w (x s).2.memory ∨ ∃ r fault fault',
    s.memory.Stopped w r fault (x s).2.memory ∧ (x s).1 = .raised fault' ∧ w.Passes fault fault'

theorem Reports.of_cell {x : Run α} (h : ∀ s r, ((x s).2.memory.cell r).calls =
    (s.memory.cell r).calls ∧ ((x s).2.memory.cell r).body = (s.memory.cell r).body) : Reports w x :=
  fun s => .inl (.of_cell (h s))

theorem Reports.bind {x : Run α} {f : α → Run β} (hx : Reports w x) (hf : ∀ a, Reports w (f a)) :
    Reports w (x >>= f) := by
  intro s
  have hxs := hx s
  rw [bind_apply]
  rcases hx' : x s with ⟨a | fault | _,u⟩
  all_goals rw [hx'] at hxs
  · rcases hxs with hlearned | ⟨r,fault,fault',-,hraised,-⟩
    · rcases hf a u with hlearned' | ⟨r,fault,fault',hstopped,hrest⟩
      · exact .inl (hlearned.trans hlearned')
      · exact .inr ⟨r,fault,fault',hlearned.stopped hstopped,hrest⟩
    · cases hraised
  · exact hxs.imp_right fun ⟨r,given,fault',hstopped,hraised,hpasses⟩ => by
      cases hraised
      exact ⟨r,given,fault,hstopped,rfl,hpasses⟩
  · rcases hxs with hlearned | ⟨r,fault,fault',-,hraised,-⟩
    · exact .inl hlearned
    · cases hraised

theorem reports_asking (w : World) :
    Rules.Asking fun (α : Type) (x y : Run α) => x = y ∧ Reports w x where
  done a := ⟨rfl,.of_cell fun _ _ => ⟨rfl,rfl⟩⟩
  bind := by
    rintro α β x _ f g ⟨rfl,hx⟩ hf
    have hfg : f = g := funext fun a => (hf a).1
    subst hfg
    exact ⟨rfl,hx.bind fun a => (hf a).2⟩
  raise fault := ⟨rfl,.of_cell fun _ _ => ⟨rfl,rfl⟩⟩
  exhaust := ⟨rfl,.of_cell fun _ _ => ⟨rfl,rfl⟩⟩
  known id := ⟨rfl,.of_cell fun _ _ => ⟨rfl,rfl⟩⟩
  pending := ⟨rfl,.of_cell fun _ _ => ⟨rfl,rfl⟩⟩
  keep id units := ⟨rfl,.of_cell fun _ _ => ⟨rfl,rfl⟩⟩

/-- A fault that passes through a traced node reports the same refusal. -/
theorem Reports.traced {x : Run Outcome} (h : Reports w x) (c : Context) (hook : HookId) (name : Text)
    (i : Int) : Reports w (Hooks.traced id w c hook name i x) := by
  intro s
  cases Hooks.traced_traces w c hook name id i x s with
  | hidden _ hr =>
    rw [hr]
    exact h s
  | stopped _ _ _ hu =>
    rw [hu]
    exact .inl (.refl w _)
  | @heard u span duration _ _ hu _ ha hm =>
    rw [hm,ha,← hu]
    refine (h u).imp_right ?_
    rintro ⟨r,fault,fault',hstopped,hraised,hpasses⟩
    rw [hraised]
    rcases Answer.heard_cases _ (.raised fault' : Answer Outcome) with he | ⟨raised,htold,he⟩
    · exact ⟨r,fault,fault',hstopped,he,hpasses⟩
    · exact ⟨r,fault,raised,hstopped,he,.inr (Hooks.raises_of_told htold)⟩

theorem Reports.logged {x : Run Outcome} (h : Reports w x) (c : Context) (own : Option HookId)
    (name : Text) (i : Int) : Reports w (Hooks.logged id w c own name i x) :=
  fun s => h.traced c (Hooks.chosen w own c.hook s.tracing.calls) name i s

end Run

namespace Rules

open Run

theorem reports_body (w : World) (r : RuleId) : Reports w (body w r) := by
  intro s
  cases hb : (s.memory.cell r).body with
  | some p =>
    rw [body_known hb]
    exact .inl (.refl w _)
  | none =>
    have hothers (c : RuleCell) : ∀ t ≠ r, w.Learns t (s.memory.cell t)
        ((s.memory.setCell r c).cell t) := by
      intro t ht
      rw [Memory.cell_setCell,if_neg ht]
      exact .stays rfl rfl
    cases hp : w.supply r (s.memory.cell r).calls with
    | ok p =>
      rw [body_supplied hb hp]
      refine .inl fun t => ?_
      by_cases ht : t = r
      · subst ht
        exact .builds hb hp (by simp) (by simp)
      · exact hothers _ t ht
    | error fault =>
      rw [body_refused hb hp]
      exact .inr ⟨r,fault,fault,⟨hb,hp,by simp,by simpa using hb,hothers _⟩,rfl,.inl rfl⟩

theorem reports_resolve {unit : Parser → Run Bool} (h : ∀ p, Reports w (unit p)) (r : RuleId) :
    Reports w (resolve w unit r) := by
  intro s
  cases hu : (s.memory.cell r).unit with
  | some u =>
    rw [resolve_known hu]
    exact .inl (.refl w _)
  | none =>
    cases hp : Memory.placeOf r s.memory.resolving with
    | some low =>
      rw [resolve_guessed hu hp]
      exact .inl (.of_cell fun _ => ⟨rfl,rfl⟩)
    | none =>
      have hasked := ((reports_body w r).bind h) (s.mapMemory (·.enter r))
      rcases hx : (body w r >>= unit) (s.mapMemory (·.enter r)) with ⟨u | fault | _,t⟩
      all_goals rw [hx] at hasked
      · rw [resolve_answered hu hp hx]
        rcases hasked with hlearned | ⟨_,_,_,_,hraised,_⟩
        · exact .inl (hlearned.trans (.of_cell (t.memory.cell_settle r u)))
        · cases hraised
      · rw [resolve_raised hu hp hx]
        rcases hasked with hlearned | ⟨s',given,fault',hstopped,hraised,hpasses⟩
        · exact .inl hlearned
        · cases hraised
          have hentered : s.memory.Learned w (s.mapMemory (·.enter r)).memory :=
            .of_cell fun _ => ⟨rfl,rfl⟩
          exact .inr ⟨s',given,fault,(hentered.stopped hstopped).of_cell fun _ => ⟨rfl,rfl⟩,rfl,
            hpasses⟩
      · rw [resolve_exhausted hu hp hx]
        rcases hasked with hlearned | ⟨_,_,_,_,hraised,_⟩
        · exact .inl hlearned
        · cases hraised

theorem reports_isUnit (w : World) (n : Nat) (p : Parser) : Reports w (isUnit w n p) := by
  have hR := reports_asking w
  have h : isUnit w n p = isUnit w n p ∧ Reports w (isUnit w n p) := by
    induction n generalizing p with
    | zero => exact hR.exhaust
    | succ n ih =>
      apply hR.isUnit p (fun q _ => ih q)
      exact fun r name _ => ⟨rfl,reports_resolve (fun q => (ih q).2) r⟩
  exact h.2

end Rules

namespace Parsing

open Run

theorem run_reports (w : World) (c : Context) (n : Nat) (p : Parser) (i : Int) :
    Reports w (run w c n p i) := by
  have hR := reports_asking w
  have h : run w c n p i = run w c n p i ∧ Reports w (run w c n p i) := by
    induction n generalizing p i with
    | zero => exact hR.exhaust
    | succ n ih =>
      apply hR.node c.text p i (fun q _ j => ih q j) (fun _ _ _ _ _ q _ _ j => ih q j)
      · exact fun id parts _ => hR.shape id fun q _ => ⟨rfl,Rules.reports_isUnit w n q⟩
      · intro r name _
        refine ⟨rfl,(Rules.reports_body w r).bind fun q => ?_⟩
        cases c.tracesRules with
        | some hook => exact (ih q i).2.traced c hook name i
        | none => exact (ih q i).2
      · exact fun id body name hook _ => ⟨rfl,(ih body i).2.logged c hook name i⟩
  exact h.2

end Parsing

namespace Outline

open Run

theorem reports_sections (w : World) (n : Nat) (seen : List RuleId) (waiting : List Reference) :
    Reports w (sections w n seen waiting) := by
  induction n generalizing seen waiting with
  | zero => cases waiting <;> exact .of_cell fun _ _ => ⟨rfl,rfl⟩
  | succ n ih =>
    cases waiting with
    | nil => exact .of_cell fun _ _ => ⟨rfl,rfl⟩
    | cons x waiting =>
      rw [sections]
      split
      · exact ih seen waiting
      · refine (Rules.reports_body w x.1).bind fun body => (ih _ _).bind fun rest => ?_
        exact .of_cell fun _ _ => ⟨rfl,rfl⟩

theorem reports_explain (w : World) (limit : Nat) (p : Parser) (expand : Bool) :
    Reports w (explain w limit p expand) := by
  have hdone (t : Text) : Reports w (pure t : Run Text) := .of_cell fun _ _ => ⟨rfl,rfl⟩
  cases expand with
  | true => exact (reports_sections w limit [] (rulesIn p)).bind fun more => hdone _
  | false => exact hdone _

end Outline

namespace Grammar

variable {G : Grammar} {w w₀ : World} {c : Context} {refusals : RuleId → Nat}

/-- What a parser means does not depend on suppliers. -/
theorem means_of_hook (hh : w.Steady) (h : w₀.hook = w.hook) (n : Nat) (p : Parser) (i : Int) :
    Run.Parallel (fun _ => True) Tracing.SameDepth _ _ (· = ·) (G.means w c n p i)
      (G.means w₀ c n p i) := by
  have hR := (Run.parallel_lockstep (fun _ => True) Tracing.SameDepth).congruence
  induction n generalizing p i with
  | zero => exact hR.exhaust
  | succ n ih =>
    refine hR.node c.text p i (fun q _ j => ih q j) (fun _ _ _ _ _ q _ _ j => ih q j)
      (fun _ _ _ => hR.done _) ?_ ?_
    · intro r name _
      cases ht : c.tracesRules with
      | some hook =>
        rw [observed_rule_some ht,observed_rule_some ht]
        exact fun s s' hs hm ht =>
          (ih _ i).traced ((hh.mirrored h rfl hook name).traces rfl _ _ ht) hs hm ht
      | none =>
        rw [observed_rule_none ht,observed_rule_none ht]
        exact ih _ i
    · intro _ body name own _ s s' hs hm ht
      exact (ih body i).traced ((hh.mirrored_chosen h rfl own c.hook _ _ name).traces rfl _ _ ht) hs
        hm ht

/-- What can be asked of a parser. -/
inductive Inquiry
  | parse (p : Parser) (t : Text) (i : Int) (hook : Option HookId) (config : Option Config)
  | unit (p : Parser)
  | explain (p : Parser)

/-- What is found out about a parser. -/
inductive Finding
  | outcome (o : Outcome)
  | unit (u : Bool)
  | outline (t : Text)

namespace Inquiry

def parser : Inquiry → Parser
  | parse p .. | unit p | explain p => p

/-- Parses, asks whether a parser is a unit parser, or outlines it with the bodies of rules. -/
def run (w : World) (limit : Nat) : Inquiry → Run Finding
  | parse p t i hook config => Finding.outcome <$> Parsing.parse w limit p t i hook config
  | unit p => Finding.unit <$> Rules.isUnit w limit p
  | explain p => Finding.outline <$> Outline.explain w limit p true

end Inquiry

theorem inquiry_reports (w : World) (limit : Nat) (q : Inquiry) : Run.Reports w (q.run w limit) := by
  have hmap {α : Type} {x : Run α} (h : Run.Reports w x) (f : α → Finding) :
      Run.Reports w (f <$> x) := by
    intro s
    rw [Run.map_apply]
    refine (h s).imp_right ?_
    rintro ⟨r,fault,fault',hstopped,hraised,hpasses⟩
    exact ⟨r,fault,fault',hstopped,by rw [hraised]; rfl,hpasses⟩
  cases q with
  | parse p t i hook config =>
    apply hmap
    intro s
    exact Parsing.run_reports w ⟨t,hook.or s.ambientHook,config.or s.ambientConfig⟩ limit p i
      (s.setDepth 0)
  | unit p => exact hmap (Rules.reports_isUnit w limit p) _
  | explain p => exact hmap (Outline.reports_explain w limit p true) _

theorem inquiry_keeps (hw : G.Supplied w refusals) (limit : Nat) {q : Inquiry} (hq : G.Has q.parser) :
    G.Keeps refusals (q.run w limit) := by
  cases q with
  | parse p t i hook config =>
    exact Keeps.map (fun s hs => run_keeps hw limit hq i (s.setDepth 0) hs) _
  | unit p => exact Keeps.map (.asks (isUnit_asks hw hq)) _
  | explain p => exact (explain_keeps hw limit hq true).map _

/-- The sections of an outline are the same from every settled memory. -/
theorem sections_agree (hw : G.Supplied w refusals) (hw₀ : G.Supplied w₀ fun _ => 0) {n m : Nat}
    (hnm : n ≤ m) (seen : List RuleId) {waiting : List Outline.Reference}
    (h : ∀ x ∈ waiting, x.1 ∈ G.rules) {s s₀ : State} (hs : G.Settled refusals s.memory)
    (hs₀ : G.Settled (fun _ => 0) s₀.memory) {more : List Text}
    (hmore : (Outline.sections w n seen waiting s).1 = .value more) :
    (Outline.sections w₀ m seen waiting s₀).1 = .value more := by
  induction n generalizing m seen waiting s s₀ more with
  | zero =>
    cases waiting with
    | nil =>
      rw [Outline.sections] at hmore ⊢
      exact hmore
    | cons x waiting => cases hmore
  | succ n ih =>
    cases waiting with
    | nil =>
      rw [Outline.sections] at hmore ⊢
      exact hmore
    | cons x waiting =>
      obtain ⟨m,rfl⟩ := Nat.exists_eq_add_of_le' (Nat.le_trans (Nat.le_add_left 1 n) hnm)
      obtain ⟨r,name⟩ := x
      have hle : n ≤ m := by omega
      have hr : r ∈ G.rules := h (r,name) (by simp)
      have hwaiting : ∀ x ∈ waiting, x.1 ∈ G.rules := fun x hx => h x (by simp [hx])
      rw [Outline.sections] at hmore ⊢
      by_cases hseen : r ∈ seen
      · rw [if_pos hseen] at hmore ⊢
        exact ih hle seen hwaiting hs hs₀ hmore
      · rw [if_neg hseen] at hmore ⊢
        have hbody : ∀ x ∈ waiting ++ Outline.rulesIn (G.body r), x.1 ∈ G.rules := by
          intro x hx
          rcases List.mem_append.mp hx with hx | hx
          · exact hwaiting x hx
          · exact mem_rules_of_rulesOf (List.forall_mem_singleton.mpr (G.closed r hr)) hx
        obtain ⟨p,u,hp,hrest⟩ := Run.bind_eq_value_iff.mp (Prod.ext hmore rfl)
        obtain ⟨hu,hgiven⟩ := Asks.settled (body_asks hw hr : G.Asks w refusals [] True _ _) hs
        rw [hp] at hu hgiven
        obtain rfl : p = G.body r := hgiven
        obtain ⟨rest,v,hsections,hv⟩ := Run.bind_eq_value_iff.mp hrest
        obtain ⟨p₀,u₀,hp₀,rfl,hu₀⟩ := Asks.answered
          (body_asks hw₀ hr : G.Asks w₀ (fun _ => 0) [] True _ _) trivial hs₀
        have hrest₀ := ih hle (r :: seen) hbody hu hu₀ (congrArg Prod.fst hsections)
        rw [Run.bind_of_value hp₀,Run.bind_of_value (Prod.ext hrest₀ rfl)]
        exact congrArg Prod.fst hv

/-- What is found out where suppliers may have refused is found out where none refuses, from every
settled memory, if the nesting is deep enough. -/
theorem inquiry_agrees (hw : G.Supplied w refusals) (hw₀ : G.Supplied w₀ fun _ => 0)
    (hh : w.Steady) (hk : w₀.hook = w.hook) {q : Inquiry} (hq : G.Has q.parser) {limit : Nat} {s : State}
    (hs : G.Settled refusals s.memory) {a : Finding} (ha : (q.run w limit s).1 = .value a) :
    ∃ deep, ∀ limit₀ ≥ deep, ∀ s₀, G.Settled (fun _ => 0) s₀.memory →
      s₀.ambientHook = s.ambientHook → s₀.ambientConfig = s.ambientConfig →
        (q.run w₀ limit₀ s₀).1 = .value a := by
  cases q with
  | parse p t i hook config =>
    obtain ⟨o,hparse,rfl⟩ := Run.map_eq_value_iff.mp (Prod.ext ha rfl)
    have hp : G.Has p := hq
    have hh₀ : w₀.Steady := by
      unfold World.Steady World.Overlooks World.Heeds at hh ⊢
      rwa [hk]
    let c : Context := ⟨t,hook.or s.ambientHook,config.or s.ambientConfig⟩
    have hmeans := run_obeys (c := c) hw limit hp i (s.setDepth 0) (s.setDepth 0) ⟨hs,.refl w _⟩
    have hvalue : (Parsing.run w c limit p i (s.setDepth 0)).1 = .value o := congrArg Prod.fst hparse
    rw [hvalue] at hmeans
    have hmeans₀ : (G.means w₀ c limit p i (s.setDepth 0)).1 = .value o := by
      have hlike : ((G.means w c limit p i (s.setDepth 0)).1).Like (· = ·) _ :=
        (means_of_hook hh hk limit p i _ (s.setDepth 0) trivial rfl rfl).1
      exact (Answer.eq_of_like hlike).trans hmeans.1
    obtain ⟨deep,hreach⟩ := reaches_means hw₀ limit hp i (by rw [hmeans₀]; simp)
    refine ⟨deep,fun limit₀ hlimit s₀ hs₀ hhook hconfig => ?_⟩
    obtain ⟨u,hu,-⟩ := hreach limit₀ hlimit (s₀.setDepth 0) ⟨hs₀,.steady hh₀ rfl⟩
    have hparse₀ : (Parsing.parse w₀ limit₀ p t i hook config s₀).1 = .value o := by
      change (Parsing.run w₀ ⟨t,hook.or s₀.ambientHook,config.or s₀.ambientConfig⟩ limit₀ p i
        (s₀.setDepth 0)).1 = .value o
      rw [hhook,hconfig]
      exact (congrArg Prod.fst hu).trans hmeans₀
    rw [Inquiry.run,Run.map_apply,hparse₀]
    rfl
  | unit p =>
    obtain ⟨u,hunit,rfl⟩ := Run.map_eq_value_iff.mp (Prod.ext ha rfl)
    have hp : G.Has p := hq
    have hasked : G.Asks w refusals [] _ _ (Rules.isUnit w limit p) := isUnit_asks hw hp
    have hfits := (hasked.settled hs).2
    rw [hunit] at hfits
    have hexact : u = G.isUnit p := Fits.exact hfits
    refine ⟨p.size + G.weight * G.pending [],fun limit₀ hlimit s₀ hs₀ _ _ => ?_⟩
    obtain ⟨v,hv,-⟩ := isUnit_exact hw₀ hp hlimit hs₀
    rw [Inquiry.run,Run.map_apply,hv,hexact]
    rfl
  | explain p =>
    obtain ⟨t,hexplain,rfl⟩ := Run.map_eq_value_iff.mp (Prod.ext ha rfl)
    obtain ⟨more,u,hsections,ht⟩ := Run.bind_eq_value_iff.mp hexplain
    have hwaiting : ∀ x ∈ Outline.rulesIn p, x.1 ∈ G.rules := fun x hx =>
      mem_rules_of_rulesOf (List.forall_mem_singleton.mpr hq) hx
    refine ⟨limit,fun limit₀ hlimit s₀ hs₀ _ _ => ?_⟩
    have hsections₀ := sections_agree hw hw₀ hlimit [] hwaiting hs hs₀ (congrArg Prod.fst hsections)
    have hexplain₀ : (Outline.explain w₀ limit₀ p true s₀).1 = .value t := by
      have hbind := Run.bind_of_value (f := fun more => (pure (Text.joinWith ['\n']
        (Outline.lines p 0 ++ more)) : Run Text)) (Prod.ext hsections₀ rfl)
      exact (congrArg Prod.fst hbind).trans (congrArg Prod.fst ht)
    rw [Inquiry.run,Run.map_apply,hexplain₀]
    rfl

/-- After any session over a grammar whose suppliers refuse some first calls, no inquiry leaves a
question open or an answer kept that is not exact.  One that calls a supplier that refuses raises its
fault, or what a hook raises in its place, and leaves the rule without a body; and what one finds out
is what it finds out after any session where no supplier refuses, if what hooks raise does not depend
on the calls before. -/
theorem refusals_leave_no_trace (hw : G.Supplied w refusals) (hw₀ : G.Supplied w₀ fun _ => 0)
    (hh : w.Steady) (hk : w₀.hook = w.hook) {q : Inquiry} (hq : G.Has q.parser) {xs : List Deed}
    (hxs : ∀ x ∈ xs, ∀ p ∈ x.parsers, G.Has p) {s : State} (hs : s.memory = {}) (limit : Nat) :
    let before := xs.foldl (Deed.perform w) s
    let after := q.run w limit before
    after.2.memory.resolving = [] ∧ G.Exact after.2.memory ∧
      (∀ r ∈ G.rules, (before.memory.cell r).calls < refusals r →
        (after.2.memory.cell r).calls ≠ (before.memory.cell r).calls →
          ∃ fault fault', w.supply r (before.memory.cell r).calls = .error fault ∧
            after.1 = .raised fault' ∧ w.Passes fault fault' ∧
            (after.2.memory.cell r).body = none) ∧
      ∀ a, after.1 = .value a → ∃ deep, ∀ limit₀ ≥ deep, ∀ ys : List Deed,
        (∀ y ∈ ys, ∀ p ∈ y.parsers, G.Has p) → ∀ s₀, s₀.memory = {} →
          (ys.foldl (Deed.perform w₀) s₀).ambientHook = before.ambientHook →
          (ys.foldl (Deed.perform w₀) s₀).ambientConfig = before.ambientConfig →
            (q.run w₀ limit₀ (ys.foldl (Deed.perform w₀) s₀)).1 = .value a := by
  intro before after
  have hbefore : G.Settled refusals before.memory :=
    session_settled hw hxs (hs ▸ settled_new G refusals)
  have hafter : G.Settled refusals after.2.memory := inquiry_keeps hw limit hq before hbefore
  refine ⟨hafter.idle,hafter.exact,fun r hr hlt hcalled => ?_,fun a ha => ?_⟩
  · obtain ⟨fault,hfault⟩ := (hw r hr).refuses _ hlt
    -- a supplier that still refuses gives no body, so that only being stopped by it calls it
    have hstays {m : Memory} (h : w.Learns r (before.memory.cell r) (m.cell r)) :
        (m.cell r).calls = (before.memory.cell r).calls := by
      cases h with
      | stays hcalls => exact hcalls
      | builds _ hp =>
        rw [hfault] at hp
        cases hp
    rcases inquiry_reports w limit q before with hlearned | ⟨r',given,raised,hstopped,hraised,hpasses⟩
    · exact absurd (hstays (hlearned r)) hcalled
    · by_cases hrr : r = r'
      · subst hrr
        exact ⟨given,raised,hstopped.refused,hraised,hpasses,hstopped.unbuilt⟩
      · exact absurd (hstays (hstopped.others r hrr)) hcalled
  · obtain ⟨deep,hdeep⟩ := inquiry_agrees hw hw₀ hh hk hq hbefore ha
    refine ⟨deep,fun limit₀ hlimit ys hys s₀ hs₀ hhook hconfig => ?_⟩
    have hsettled := session_settled hw₀ hys (hs₀ ▸ settled_new G _)
    exact hdeep limit₀ hlimit _ hsettled hhook hconfig

/-- The supplier of brackets refuses once: asking about the inner rule is ended by it, and what is
parsed next is what is parsed where it does not refuse. -/
theorem brackets_refused_once :
    let once : World := ⟨fun r n => if r = .named "brackets" ∧ n = 0 then .error .notReady
      else .ok (bracketed.body r),fun _ => .recording none,fun _ => 0⟩
    let never : World := { once with supply := fun r _ => .ok (bracketed.body r) }
    let value : Inquiry := .unit (.rule (.named "value") "value".toList)
    let brackets : Inquiry :=
      .parse (.rule (.named "brackets") "brackets".toList) "[a]".toList 0 none none
    let after := value.run once 9 {}
    after.1 = .raised .notReady ∧ after.2.memory.resolving = [] ∧
      (after.2.memory.cell (.named "brackets")).body = none ∧
      ∃ deep, ∀ limit ≥ deep, (brackets.run never limit {}).1 = (brackets.run once 9 after.2).1 := by
  intro once never value brackets after
  have hcalm (fault fault' : Fault) (h : once.Passes fault fault') : fault' = fault := by
    rcases h with h | ⟨hook,before,call,-,hf⟩
    · exact h
    · exact absurd (hf.symm.trans (Hook.calm_recording before call)) nofun
  have hsteady : once.Steady := .inl fun _ => HookKind.overlooks none (.recorder none) _
  have honce : bracketed.Supplied once fun r => if r = .named "brackets" then 1 else 0 := by
    intro r _
    by_cases hr : r = .named "brackets"
    · subst hr
      refine ⟨fun k hk => ⟨.notReady,?_⟩,?_⟩
      · have hzero : k = 0 := by simpa using hk
        simp [once,hzero]
      · simp [once]
    · refine ⟨fun k hk => ?_,?_⟩
      · simp [hr] at hk
      · simp [once,hr]
  have hnever : bracketed.Supplied never fun _ => 0 := fun r _ => ⟨by simp,rfl⟩
  have hvalue : bracketed.Has value.parser := .rule (by simp [bracketed])
  have hbrackets : bracketed.Has brackets.parser := .rule (by simp [bracketed])
  obtain ⟨hidle,-,hrefused,-⟩ := refusals_leave_no_trace honce hnever hsteady rfl hvalue
    (List.forall_mem_nil _) (rfl : ({} : State).memory = {}) 9
  obtain ⟨fault,fault',hfault,hraised,hpasses,hunbuilt⟩ := hrefused (.named "brackets")
    (by simp [bracketed]) (by decide) (by decide +kernel)
  have hnotReady : fault = .notReady := by simpa [once] using hfault.symm
  rw [hcalm fault fault' hpasses,hnotReady] at hraised
  refine ⟨hraised,hidle,hunbuilt,?_⟩
  have hfound : (brackets.run once 9 after.2).1.map (fun _ => ()) = .value () := by rfl
  have hsession : ∀ x ∈ [Deed.use (.unit 9 value.parser)], ∀ p ∈ x.parsers, bracketed.Has p := by
    simpa [Deed.parsers,Use.parser] using hvalue
  obtain ⟨-,-,-,hagrees⟩ := refusals_leave_no_trace honce hnever hsteady rfl hbrackets hsession
    (rfl : ({} : State).memory = {}) 9
  cases ha : (brackets.run once 9 after.2).1 with
  | value a =>
    obtain ⟨deep,hdeep⟩ := hagrees a ha
    exact ⟨deep,fun limit hlimit => hdeep limit hlimit [] (List.forall_mem_nil _) {} rfl rfl rfl⟩
  | raised fault =>
    rw [ha] at hfound
    cases hfound
  | exhausted =>
    rw [ha] at hfound
    cases hfound

end Grammar
end Peg
