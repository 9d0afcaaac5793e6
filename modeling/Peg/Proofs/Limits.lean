import Peg.Proofs.Deepening
import Peg.Proofs.Sessions

/-! What a parser means, however deep its nesting has to be.
From every state a parser means one thing from some depth on.  Main statements: the meaning of a
parser is what its node makes of the meanings of the nodes below it, under any hooks; and it is what a
parse does, after any session over the grammar. -/
namespace Peg

namespace Answer

/-- Answers that do not change once there is one are the same from some point on. -/
theorem settles {α : Type} {x : Nat → Answer α}
    (h : ∀ n m, n ≤ m → x n ≠ .exhausted → x m = x n) : ∃ a deep, ∀ n ≥ deep, x n = a := by
  by_cases hx : ∃ n, x n ≠ .exhausted
  · obtain ⟨deep,hne⟩ := hx
    exact ⟨x deep,deep,fun n hn => h deep n hn hne⟩
  · push Not at hx
    exact ⟨.exhausted,0,fun n _ => hx n⟩

end Answer

/-- Settling to one computation is kept by composing. -/
theorem Nested.settlesTo_congruence :
    Parsing.Congruence fun (α : Type) (x : Nested α) (a : Run α) => Run.SettlesTo x a where
  done a := .constant (pure a)
  bind hx hf := hx.bind hf
  raise fault := .constant (Run.raise fault)
  exhaust := .constant Run.exhaust

namespace Grammar

variable {G : Grammar} {w : World} {c : Context} {p : Parser} {i : Int} {a : Answer Outcome}

/-- What a parser means at some depth it means at every greater one. -/
theorem means_finishes {n m : Nat} (hm : n ≤ m) (p : Parser) (i : Int) :
    (G.means w c n p i).Finishes (G.means w c m p i) := by
  have hR := Run.finishes_asking.toCongruence
  induction n generalizing m p i with
  | zero => exact fun _ h => absurd rfl h
  | succ n ih =>
    obtain ⟨m,rfl⟩ := Nat.exists_eq_add_of_le' (Nat.le_trans (Nat.le_add_left 1 n) hm)
    have hnm : n ≤ m := by omega
    refine hR.node c.text p i (fun q _ j => ih hnm q j) (fun _ _ _ _ _ q _ _ j => ih hnm q j)
      (fun _ _ _ => hR.done _) ?_ ?_
    · intro r name _
      cases ht : c.tracesRules with
      | some hook =>
        rw [observed_rule_some ht,observed_rule_some ht]
        exact (ih hnm _ i).traced id w c hook name i
      | none =>
        rw [observed_rule_none ht,observed_rule_none ht]
        exact ih hnm _ i
    · exact fun _ body name own _ => (ih hnm body i).logged id w c own name i

theorem exists_means_settlesTo (G : Grammar) (w : World) (c : Context) (p : Parser) (i : Int) :
    ∃ x, Run.SettlesTo (fun n => G.means w c n p i) x :=
  Run.exists_settlesTo fun _ _ hm => means_finishes hm p i

/-- What a parser means at a position, however deep its nesting has to be. -/
noncomputable def meaning (G : Grammar) (w : World) (c : Context) (p : Parser) (i : Int) :
    Run Outcome :=
  (exists_means_settlesTo G w c p i).choose

theorem means_settlesTo (G : Grammar) (w : World) (c : Context) (p : Parser) (i : Int) :
    Run.SettlesTo (fun n => G.means w c n p i) (G.meaning w c p i) :=
  (exists_means_settlesTo G w c p i).choose_spec

/-- What surrounds a node that may be traced, at all depths. -/
noncomputable def nestedObserved (G : Grammar) (w : World) (c : Context) :
    Parsing.Surroundings Nested where
  shape _ parts := pure (parts.map G.isUnit)
  rule r name i go := fun n => (G.observed w c).rule r name i fun q => go q n
  log own name i x := fun n => (G.observed w c).log own name i (x n)

theorem means_succ (p : Parser) (i : Int) (n : Nat) :
    Parsing.node (G.nestedObserved w c) c.text (fun q j m => G.means w c m q j) p i n =
      G.means w c (n + 1) p i := by
  have hR := Nested.depth_congruence n
  exact hR.node c.text p i (fun _ _ _ => rfl) (fun _ _ _ _ _ _ _ _ _ => rfl) (fun _ _ _ => rfl)
    (fun _ _ _ => rfl) fun _ _ _ _ _ => rfl

/-- The meaning of a parser is what its node makes of the meanings of the nodes below it. -/
theorem meaning_ends (p : Parser) (i : Int) (s : State) :
    Run.Ends (· = ·) (G.meaning w c p i s)
      (Parsing.node (G.observed w c) c.text (G.meaning w c) p i s) := by
  have hR := Nested.settlesTo_congruence
  have hnode : Run.SettlesTo
      (Parsing.node (G.nestedObserved w c) c.text (fun q j m => G.means w c m q j) p i)
      (Parsing.node (G.observed w c) c.text (G.meaning w c) p i) := by
    refine hR.node c.text p i (fun q _ => means_settlesTo G w c q)
      (fun _ _ _ _ _ q _ _ => means_settlesTo G w c q) (fun _ _ _ => hR.done _) ?_ ?_
    · intro r name _
      have hb := means_settlesTo G w c (G.body r) i
      cases ht : c.tracesRules with
      | some hook =>
        rw [observed_rule_some ht]
        simp only [nestedObserved,observed_rule_some ht]
        exact hb.traced w c hook name i
      | none =>
        rw [observed_rule_none ht]
        simp only [nestedObserved,observed_rule_none ht]
        exact hb
    · exact fun _ body name own _ => (means_settlesTo G w c body i).logged w c own name i
  refine (means_settlesTo G w c p i).unique (.of_succ ?_) s
  exact funext (means_succ p i) ▸ hnode

/-- What a parser means at some depth it means. -/
theorem meaning_of_means {n : Nat} {u v : State} {a : Answer Outcome}
    (h : G.means w c n p i u = (a,v)) (ha : a ≠ .exhausted) : G.meaning w c p i u = (a,v) := by
  obtain ⟨deep,hdeep⟩ := means_settlesTo G w c p i u
  have hends : Run.Ends (· = ·) (G.means w c (max n deep) p i u) (G.meaning w c p i u) :=
    hdeep _ (Nat.le_max_right n deep)
  rw [means_finishes (Nat.le_max_left n deep) p i u (by rwa [h]),h] at hends
  generalize G.meaning w c p i u = r at hends ⊢
  cases hends with
  | value heq => rw [heq]
  | raised => rfl
  | exhausted => exact absurd rfl ha

/-- Nested deep enough, a parser does what it means, from every settled memory. -/
theorem run_meaning (hw : G.Supplied w fun _ => 0) (hp : G.Has p) (i : Int) (u : State) :
    ∃ deep, ∀ n ≥ deep, ∀ s, G.SettledAt w (fun _ => 0) u.tracing s →
      (Parsing.run w c n p i s).1 = (G.meaning w c p i u).1 := by
  by_cases h : ∃ n, (G.means w c n p i u).1 ≠ .exhausted
  · obtain ⟨n,hn⟩ := h
    rw [meaning_of_means (n := n) rfl hn]
    exact run_of_means hw hp i u (.inl hn)
  · push Not at h
    obtain ⟨deep,hdeep⟩ := means_settlesTo G w c p i u
    rw [← (hdeep deep (Nat.le_refl deep)).answer_eq]
    exact run_of_means hw hp i u (.inr h)

/-- A parse under this hook and configuration runs the parser with no node open. -/
theorem parse_eq_run {w : World} {c : Context} {hook : Option HookId} {config : Option Config}
    {s : State} (hhook : hook.or s.ambientHook = c.hook) (hconfig : config.or s.ambientConfig = c.config)
    (limit : Nat) (p : Parser) (i : Int) :
    Parsing.parse w limit p c.text i hook config s = Parsing.run w c limit p i (s.setDepth 0) := by
  have hc : (⟨c.text,hook.or s.ambientHook,config.or s.ambientConfig⟩ : Context) = c := by
    rw [hhook,hconfig]
  exact congrArg (fun c => Parsing.run w c limit p i (s.setDepth 0)) hc

variable {refusals : RuleId → Nat}

/-- How a parser ends in parses under this hook and configuration, after any session over a grammar,
beside a computation that has no limit and no memory: after records beside which hooks do the same,
it gives the value of that in every parse that returns, and leaves such a record; and if no supplier
refuses, it ends so in every parse whose limit is large enough. -/
structure Accounts (G : Grammar) (w : World) (refusals : RuleId → Nat) (c : Context) (p : Parser)
    (i : Int) (x : Run Outcome) : Prop where
  returned {limit : Nat} {s u s' : State} {hook : Option HookId} {config : Option Config}
    {o : Outcome} : G.InSession w s → hook.or s.ambientHook = c.hook →
      config.or s.ambientConfig = c.config → w.Impartial u.tracing (s.setDepth 0).tracing →
      Parsing.parse w limit p c.text i hook config s = (.value o,s') →
        ∃ u', x u = (.value o,u') ∧ w.Impartial u'.tracing s'.tracing
  reached (u : State) : (∀ r ∈ G.rules, refusals r = 0) →
    ∃ deep, ∀ limit ≥ deep, ∀ s hook config, G.InSession w s → hook.or s.ambientHook = c.hook →
      config.or s.ambientConfig = c.config → w.Impartial u.tracing (s.setDepth 0).tracing →
        (Parsing.parse w limit p c.text i hook config s).1 = (x u).1

/-- A parser does what it means, also where suppliers refuse at first. -/
theorem accounts_meaning (hw : G.Supplied w refusals) (hp : G.Has p) (i : Int) :
    G.Accounts w refusals c p i (G.meaning w c p i) where
  returned := by
    intro limit s u s' hook config o hs hhook hconfig hu ho
    rw [parse_eq_run hhook hconfig] at ho
    have hobeys := run_obeys (c := c) hw limit hp i (s.setDepth 0) u ⟨hs.settled hw,hu⟩
    rw [ho] at hobeys
    obtain ⟨hmeans,hs'⟩ := hobeys
    exact ⟨_,meaning_of_means (Prod.ext hmeans rfl) (by simp),hs'.indifferent⟩
  reached u h := by
    have hw' : G.Supplied w fun _ => 0 := fun r hr => ⟨by simp,h r hr ▸ (hw r hr).gives⟩
    obtain ⟨deep,hdeep⟩ := run_meaning (c := c) hw' hp i u
    refine ⟨deep,fun limit hl s hook config hs hhook hconfig hu => ?_⟩
    rw [parse_eq_run hhook hconfig]
    exact hdeep limit hl (s.setDepth 0) ⟨hs.settled hw',hu⟩

/-- Computations that end in the same way account for the same parses. -/
theorem Accounts.congr {x y : Run Outcome} (h : G.Accounts w refusals c p i x)
    (hxy : Run.Abreast _ _ (· = ·) x y) : G.Accounts w refusals c p i y where
  returned {_ _ u _ _ _ _} hs hhook hconfig hu ho := by
    obtain ⟨u',hx,hu'⟩ := h.returned hs hhook hconfig hu ho
    have hends := hxy u
    rw [hx] at hends
    generalize y u = r at hends ⊢
    cases hends with
    | value heq => exact ⟨u',by rw [heq],hu'⟩
  reached u h0 := (hxy u).answer_eq ▸ h.reached u h0

/-- After any session over a grammar, with every limit that is large enough, a parse under this hook
and configuration ends with this answer. -/
def ParsesTo (G : Grammar) (w : World) (c : Context) (p : Parser) (i : Int) (a : Answer Outcome) :
    Prop :=
  ∃ deep, ∀ limit ≥ deep, ∀ s hook config, G.InSession w s → hook.or s.ambientHook = c.hook →
    config.or s.ambientConfig = c.config →
      (Parsing.parse w limit p c.text i hook config s).1 = a

/-- How a parser ends in parses under this hook and configuration, after any session over a grammar:
in every one that returns, and if no supplier refuses, in every one whose limit is large enough. -/
structure Promises (G : Grammar) (w : World) (refusals : RuleId → Nat) (c : Context) (p : Parser)
    (i : Int) (a : Answer Outcome) : Prop where
  returned {limit : Nat} {s : State} {hook : Option HookId} {config : Option Config} {o : Outcome} :
    G.InSession w s → hook.or s.ambientHook = c.hook → config.or s.ambientConfig = c.config →
      (Parsing.parse w limit p c.text i hook config s).1 = .value o → a = .value o
  reached : (∀ r ∈ G.rules, refusals r = 0) → G.ParsesTo w c p i a

/-- Where what hooks raise does not depend on the calls before, a parser ends in one way. -/
theorem Accounts.promises {x : Run Outcome} (h : G.Accounts w refusals c p i x) (hh : w.Steady) :
    G.Promises w refusals c p i (x {}).1 where
  returned hs hhook hconfig ho := by
    obtain ⟨u,hu,-⟩ := h.returned (u := {}) hs hhook hconfig (.steady hh rfl) (Prod.ext ho rfl)
    rw [hu]
  reached h0 := by
    obtain ⟨deep,hdeep⟩ := h.reached {} h0
    exact ⟨deep,fun limit hl s hook config hs hhook hconfig =>
      hdeep limit hl s hook config hs hhook hconfig (.steady hh rfl)⟩

/-- A parse ends in one way. -/
theorem ParsesTo.unique {b : Answer Outcome} (h : G.ParsesTo w c p i a)
    (h' : G.ParsesTo w c p i b) : a = b := by
  obtain ⟨deep,h⟩ := h
  obtain ⟨deep',h'⟩ := h'
  let s : State := { ({} : State) with ambientHook := c.hook, ambientConfig := c.config }
  have hs : G.InSession w s := ⟨[],List.forall_mem_nil _,s,rfl,rfl⟩
  rw [← h (max deep deep') (Nat.le_max_left _ _) s none none hs rfl rfl,
    ← h' (max deep deep') (Nat.le_max_right _ _) s none none hs rfl rfl]

end Grammar
end Peg
