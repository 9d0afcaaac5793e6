import Peg.Parser.Equality
import Peg.Proofs.Kinds
import Peg.Proofs.Meaning

/-! Sessions with the parsers of a grammar.
Parsing, asking, writing, comparing and outlining leave only truth remembered, and tracing leaves
no node open.  Main statement: after any session, a parse ends as the same parse does in a session
that it begins. -/
namespace Peg

namespace Grammar

variable {G : Grammar} {w : World} {c : Context} {refusals : RuleId → Nat}

/-- The rules met in parsers over a grammar are rules of the grammar. -/
theorem mem_rules_of_rulesOf {ps : List Parser} (hp : ∀ p ∈ ps, G.Has p) {x : Outline.Reference}
    (hx : x ∈ Outline.rulesOf ps) : x.1 ∈ G.rules := by
  induction ps using Outline.rulesOf.induct with
  | case1 =>
    rw [Outline.rulesOf] at hx
    cases hx
  | case2 r name ps ih =>
    rw [Outline.rulesOf] at hx
    rcases List.mem_cons.mp hx with rfl | hx
    · exact (hp (.rule r name) (by simp)).mem_rules
    · exact ih (fun p h => hp p (by simp [h])) hx
  | case3 p ps hne ih =>
    rw [Outline.rulesOf] at hx
    · refine ih (fun q hq => ?_) hx
      rcases List.mem_append.mp hq with hq | hq
      · exact (hp p (by simp)).children hq
      · exact hp q (by simp [hq])
    · exact hne

/-- Outlining the rules that wait keeps a settled memory. -/
theorem sections_keeps (hw : G.Supplied w refusals) (n : Nat) (seen : List RuleId)
    {waiting : List Outline.Reference} (h : ∀ x ∈ waiting, x.1 ∈ G.rules) :
    G.Keeps refusals (Outline.sections w n seen waiting) := by
  induction n generalizing seen waiting with
  | zero =>
    cases waiting with
    | nil => exact .done _
    | cons x waiting => exact fun s hs => hs
  | succ n ih =>
    cases waiting with
    | nil => exact .done _
    | cons x waiting =>
      obtain ⟨r,name⟩ := x
      have hr : r ∈ G.rules := h (r,name) (by simp)
      have hwaiting : ∀ x ∈ waiting, x.1 ∈ G.rules := fun x hx => h x (by simp [hx])
      rw [Outline.sections]
      split
      · exact ih seen hwaiting
      · refine .body hw hr (.bind (ih _ fun x hx => ?_) fun rest => .done _)
        rcases List.mem_append.mp hx with hx | hx
        · exact hwaiting x hx
        · exact mem_rules_of_rulesOf (List.forall_mem_singleton.mpr (G.closed r hr)) hx

theorem explain_keeps (hw : G.Supplied w refusals) (limit : Nat) {p : Parser} (hp : G.Has p)
    (expand : Bool) : G.Keeps refusals (Outline.explain w limit p expand) := by
  have hs : G.Keeps refusals (Outline.sections w limit [] (Outline.rulesIn p)) :=
    sections_keeps hw limit [] fun x hx =>
      mem_rules_of_rulesOf (List.forall_mem_singleton.mpr hp) hx
  unfold Outline.explain
  cases expand with
  | true => exact hs.bind fun more => .done _
  | false => exact .done _

/-- One thing done in a session: a use, writing a parser, comparing two, outlining one, or setting
what is ambient, as where a stretch of tracing begins or ends. -/
inductive Deed
  | use (x : Use)
  | write (p : Parser)
  | equal (p q : Parser)
  | explain (limit : Nat) (p : Parser) (expand : Bool)
  | ambient (hook : Option HookId) (config : Option Config)

namespace Deed

/-- The parsers that something is done with. -/
def parsers : Deed → List Parser
  | use x => [x.parser]
  | write p => [p]
  | equal p q => [p,q]
  | explain _ p _ => [p]
  | ambient .. => []

/-- The state after a deed. -/
def perform (w : World) (s : State) : Deed → State
  | use x => x.perform w s
  | write p => ((pure p.written : Run Text) s).2
  | equal p q => ((pure (p.equal q) : Run Bool) s).2
  | explain limit p expand => (Outline.explain w limit p expand s).2
  | ambient hook config => { s with ambientHook := hook, ambientConfig := config }

end Deed

theorem deed_settled (hw : G.Supplied w refusals) {x : Deed} (hx : ∀ p ∈ x.parsers, G.Has p)
    {s : State} (hs : G.Settled refusals s.memory) : G.Settled refusals (x.perform w s).memory := by
  cases x with
  | use x => exact perform_settled hw (hx x.parser (by simp [Deed.parsers])) hs
  | write p => exact hs
  | equal p q => exact hs
  | explain limit p expand => exact explain_keeps hw limit (hx p (by simp [Deed.parsers])) expand s hs
  | ambient hook config => exact hs

/-- A whole session leaves only truth remembered. -/
theorem session_settled (hw : G.Supplied w refusals) {xs : List Deed}
    (hx : ∀ x ∈ xs, ∀ p ∈ x.parsers, G.Has p) {s : State} (hs : G.Settled refusals s.memory) :
    G.Settled refusals (xs.foldl (Deed.perform w) s).memory := by
  induction xs generalizing s with
  | nil => exact hs
  | cons x xs ih => exact ih (fun y hy => hx y (by simp [hy])) (deed_settled hw (hx x (by simp)) hs)

/-- A state that a session over a grammar leads to. -/
def InSession (G : Grammar) (w : World) (s : State) : Prop :=
  ∃ xs : List Deed, (∀ x ∈ xs, ∀ p ∈ x.parsers, G.Has p) ∧
    ∃ fresh : State, fresh.memory = {} ∧ s = xs.foldl (Deed.perform w) fresh

theorem InSession.settled {s : State} (h : G.InSession w s) (hw : G.Supplied w refusals) :
    G.Settled refusals s.memory := by
  obtain ⟨xs,hxs,fresh,hfresh,rfl⟩ := h
  exact session_settled hw hxs (hfresh ▸ settled_new G _)

/-- Where a parser means something at a depth, or nothing at any, it does what it means there, from
every settled memory and at every depth that is large enough. -/
theorem run_of_means (hw : G.Supplied w fun _ => 0) {p : Parser} (hp : G.Has p) (i : Int) (u : State)
    {n : Nat}
    (h : (G.means w c n p i u).1 ≠ .exhausted ∨ ∀ m, (G.means w c m p i u).1 = .exhausted) :
    ∃ deep, ∀ m ≥ deep, ∀ s, G.SettledAt w (fun _ => 0) u.tracing s →
      (Parsing.run w c m p i s).1 = (G.means w c n p i u).1 := by
  rcases h with h | h
  · obtain ⟨deep,hr⟩ := reaches_means hw n hp i h
    refine ⟨deep,fun m hm s hs => ?_⟩
    obtain ⟨s',hx,-⟩ := hr m hm s hs
    have hx : Parsing.run w c m p i s = ((G.means w c n p i u).1,s') := hx
    rw [hx]
  · refine ⟨0,fun m _ s hs => ?_⟩
    have ha := run_obeys (c := c) hw m hp i s u hs
    rw [h n]
    rcases hx : (Parsing.run w c m p i s).1 with o | fault | _
    · rw [hx] at ha
      exact absurd (ha.1.symm.trans (h m)) (by simp)
    · rw [hx] at ha
      exact absurd ((ha fun _ => rfl).1.symm.trans (h m)) (by simp)
    · rfl

/-- At every depth that is large enough a parser does the same from every settled memory: what it
means at some depth, or nothing if it means nothing at any. -/
theorem run_determined (hw : G.Supplied w fun _ => 0) {p : Parser} (hp : G.Has p) (i : Int)
    (t : Tracing) :
    ∃ a deep, ∀ n ≥ deep, ∀ s, G.SettledAt w (fun _ => 0) t s →
      (Parsing.run w c n p i s).1 = a := by
  let u : State := { ({} : State) with tracing := t }
  by_cases h : ∃ n, (G.means w c n p i u).1 ≠ .exhausted
  · obtain ⟨n,hn⟩ := h
    exact ⟨_,run_of_means hw hp i u (.inl hn)⟩
  · push Not at h
    exact ⟨_,run_of_means hw hp i u (n := 0) (.inr h)⟩

/-- After any session over a grammar whose suppliers succeed, a parse ends as it does in a session
that it begins, under the same ambient hook and configuration, if what hooks raise does not depend
on the calls before. -/
theorem parse_after_session (hw : ∀ r ∈ G.rules, w.supply r 0 = .ok (G.body r)) (hh : w.Steady)
    {p : Parser} (hp : G.Has p) (t : Text) (i : Int) (hook : Option HookId) (config : Option Config)
    {fresh : State} (hf : fresh.memory = {}) :
    ∃ deep, ∀ limit ≥ deep, ∀ xs : List Deed, (∀ x ∈ xs, ∀ p ∈ x.parsers, G.Has p) →
      ∀ s, s.memory = {} →
        (xs.foldl (Deed.perform w) s).ambientHook = fresh.ambientHook →
        (xs.foldl (Deed.perform w) s).ambientConfig = fresh.ambientConfig →
        (Parsing.parse w limit p t i hook config (xs.foldl (Deed.perform w) s)).1 =
          (Parsing.parse w limit p t i hook config fresh).1 := by
  have hw' : G.Supplied w fun _ => 0 := fun r hr => ⟨by simp,hw r hr⟩
  obtain ⟨a,deep,h⟩ := run_determined (w := w)
    (c := ⟨t,hook.or fresh.ambientHook,config.or fresh.ambientConfig⟩) hw' hp i {}
  have hparse {limit : Nat} (hl : limit ≥ deep) {s : State} (hs : G.Settled (fun _ => 0) s.memory)
      (hhook : s.ambientHook = fresh.ambientHook)
      (hconfig : s.ambientConfig = fresh.ambientConfig) :
      (Parsing.parse w limit p t i hook config s).1 = a := by
    have ha := h limit hl (s.setDepth 0) ⟨hs,.steady hh rfl⟩
    rwa [← hhook,← hconfig] at ha
  refine ⟨deep,fun limit hl xs hx s hs hhook hconfig => ?_⟩
  have hm := session_settled hw' hx (hs ▸ settled_new G _)
  exact (hparse hl hm hhook hconfig).trans (hparse hl (hf ▸ settled_new G _) rfl rfl).symm

/-- Asked about and outlined from the inside, written, and parsed with under a hook that raises,
both ways of brackets still parse as at first. -/
theorem parse_brackets_after_session :
    let w : World :=
      ⟨fun r _ => .ok (bracketed.body r),fun _ => .recording (some .exit),fun n => n⟩
    let value : Parser := .rule (.named "value") "value".toList
    let brackets : Parser := .rule (.named "brackets") "brackets".toList
    let session : List Deed := [.use (.unit 9 value),.explain 9 brackets true,
      .ambient (some .standard) (some ⟨true,none⟩),.use (.parse 9 brackets "[a".toList 0 none none),
      .write value,.equal value brackets,.ambient none none]
    ∃ deep, ∀ limit ≥ deep,
      (Parsing.parse w limit brackets "[[a]]".toList 0 none none
        (session.foldl (Deed.perform w) {})).1 =
          (Parsing.parse w limit brackets "[[a]]".toList 0 none none {}).1 := by
  intro w value brackets session
  have hvalue : bracketed.Has value := .rule (by simp [bracketed])
  have hbrackets : bracketed.Has brackets := .rule (by simp [bracketed])
  have hh : w.Steady := .inl fun _ => HookKind.overlooks none (.recorder (some .exit)) _
  obtain ⟨deep,h⟩ := parse_after_session (G := bracketed) (w := w) (fun _ _ => rfl) hh hbrackets
    "[[a]]".toList 0 none none (rfl : ({} : State).memory = {})
  refine ⟨deep,fun limit hl => h limit hl session ?_ {} rfl rfl rfl⟩
  simp [session,Deed.parsers,Use.parser,hvalue,hbrackets]

end Grammar
end Peg
