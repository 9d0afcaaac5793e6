import Peg.Parser.Equality
import Peg.Proofs.Agreement
import Peg.Proofs.Limits

/-! Parsers that count as equal.
Equality goes down words, sets of characters and those nodes that are made of nothing but the nodes
below them; it stops at nodes that are told apart by a name.  Main statement: among the parsers of a
grammar it is an equivalence, and equal parsers are unit parsers together and parse every text alike. -/
namespace Peg

namespace Terminal

/-- Whether a terminal is only equal to itself. -/
def isNode : Terminal → Bool
  | start | finish | pass | fail | satisfying .. | runOf .. | regex .. => true
  | literal _ | compound _ | char _ | oneOf _ => false

/-- A terminal that has no list, tuple or dictionary in place of a word. -/
def Worded (s : Terminal) : Prop := ∀ v, s ≠ compound v

/-- The ways in which two terminals can be equal; some are only when they are the same node. -/
inductive Equals (same : Prop) : Terminal → Terminal → Prop
  | literal {word : Text} : Equals same (.literal word) (.literal word)
  | compound {v w : Value} : v.equal w = true → Equals same (.compound v) (.compound w)
  | char {c : Char} : Equals same (.char c) (.char c)
  | oneOf {chars others : Text} :
    (∀ c, c ∈ chars ↔ c ∈ others) → Equals same (.oneOf chars) (.oneOf others)
  | start : same → Equals same .start .start
  | finish : same → Equals same .finish .finish
  | pass : same → Equals same .pass .pass
  | fail : same → Equals same .fail .fail
  | satisfying {test test' : Char → Except Fault Bool} {name name' : Text} :
    same → Equals same (.satisfying test name) (.satisfying test' name')
  | runOf {chars others : Text} {least least' : Nat} :
    same → Equals same (.runOf chars least) (.runOf others least')
  | regex {matcher matcher' : Matcher} {source source' : Text} :
    same → Equals same (.regex matcher source) (.regex matcher' source')

variable {s t u : Terminal} {same same' : Prop}

theorem equals_iff [Decidable same] : (s.equal? t).getD same = true ↔ s.Equals same t := by
  constructor
  · intro h
    fun_cases equal? s t with
    | case12 =>
      rw [equal?] at h
      · cases h
      all_goals assumption
    | _ =>
      simp only [equal?,sameSet_iff,beq_iff_eq,Option.getD_some,Option.getD_none,
        decide_eq_true_eq] at h
      first
        | exact h ▸ (by constructor)
        | constructor; exact h
  · intro h
    cases h
    all_goals simp_all [equal?,sameSet_iff]

theorem Equals.self (hs : s.Worded) (h : same) : s.Equals same s := by
  cases s with
  | compound v => exact absurd rfl (hs v)
  | literal | char => constructor
  | oneOf => exact .oneOf fun _ => Iff.rfl
  | _ =>
    constructor
    exact h

theorem Equals.symm (hs : s.Worded) (h : s.Equals same t) : t.Equals same s := by
  cases h with
  | compound => exact absurd rfl (hs _)
  | literal | char => constructor
  | oneOf h => exact .oneOf fun c => (h c).symm
  | _ h =>
    constructor
    exact h

theorem Equals.trans (hs : s.Worded) (h : s.Equals same t) (h' : t.Equals same' u) :
    s.Equals (same ∧ same') u := by
  cases h with
  | compound => exact absurd rfl (hs _)
  | literal | char =>
    cases h'
    constructor
  | oneOf h => cases h' with | oneOf h' => exact .oneOf fun c => (h c).trans (h' c)
  | _ h =>
    cases h'
    constructor
    exact ⟨h,by assumption⟩

theorem Equals.imp (h : s.Equals same t) (hs : same → same') : s.Equals same' t := by
  cases h with
  | compound h => exact .compound h
  | literal | char => constructor
  | oneOf h => exact .oneOf h
  | _ h =>
    constructor
    exact hs h

/-- Terminals that are equal by what they match scan every text alike. -/
theorem Equals.scan_eq (hs : s.Worded) (h : s.Equals same t) (hnode : s.isNode = false) (x : Text)
    (i : Int) : s.scan x i = t.scan x i := by
  cases h with
  | compound => exact absurd rfl (hs _)
  | literal | char => rfl
  | @oneOf chars others h =>
    have hcontains (c : Char) : chars.contains c = others.contains c := by
      rw [Bool.eq_iff_iff,List.contains_iff_mem,List.contains_iff_mem]
      exact h c
    simp only [scan,hcontains]
  | _ => cases hnode

end Terminal

namespace Parser

/-- The name that a node is told apart by, if it is not told apart by what it is made of. -/
def identity : Parser → Option Ident
  | terminal id s => if s.isNode then some id else none
  | rep id .. | map id .. | flatMap id .. | filter id .. | log id .. => some id
  | seq .. | choice _ | opt _ | not _ | cut _ | capture _ | rule .. => none

/-- The ways in which two parsers can be equal. -/
inductive Equals : Parser → Parser → Prop
  | terminal {id id' : Ident} {s t : Terminal} :
    s.Equals (id = id') t → Equals (.terminal id s) (.terminal id' t)
  | seq {id id' : Ident} {ps qs : List Parser} :
    List.Forall₂ (fun p q => p.equal q = true) ps qs → Equals (.seq id ps) (.seq id' qs)
  | choice {ps qs : List Parser} :
    List.Forall₂ (fun p q => p.equal q = true) ps qs → Equals (.choice ps) (.choice qs)
  | opt {p q : Parser} : p.equal q = true → Equals (.opt p) (.opt q)
  | not {p q : Parser} : p.equal q = true → Equals (.not p) (.not q)
  | cut {p q : Parser} : p.equal q = true → Equals (.cut p) (.cut q)
  | capture {p q : Parser} : p.equal q = true → Equals (.capture p) (.capture q)
  | rep {id : Ident} {p p' q q' : Parser} {least least' : Quantity} {most most' : Option Quantity} :
    Equals (.rep id p least most q) (.rep id p' least' most' q')
  | map {id : Ident} {p q : Parser} {f g : Value → Except Fault Value} {name name' : Text} :
    Equals (.map id p f name) (.map id q g name')
  | flatMap {id : Ident} {p q : Parser} {next next' : Value → Except Fault Parser}
    {name name' : Text} : Equals (.flatMap id p next name) (.flatMap id q next' name')
  | filter {id : Ident} {p q : Parser} {test test' : Value → Except Fault Bool}
    {name name' : Text} : Equals (.filter id p test name) (.filter id q test' name')
  | rule {r : RuleId} {name name' : Text} : Equals (.rule r name) (.rule r name')
  | log {id : Ident} {p q : Parser} {name name' : Text} {hook hook' : Option HookId} :
    Equals (.log id p name hook) (.log id q name' hook')

theorem equalAll_iff {ps qs : List Parser} :
    equalAll ps qs = true ↔ List.Forall₂ (fun p q => p.equal q = true) ps qs := by
  induction ps generalizing qs with
  | nil => cases qs <;> simp [equalAll]
  | cons p ps ih => cases qs <;> simp [equalAll,ih]

theorem equal_iff {p q : Parser} : p.equal q = true ↔ p.Equals q := by
  constructor
  · intro h
    fun_cases equal p q with
    | case14 =>
      rw [equal] at h
      · cases h
      all_goals assumption
    | _ =>
      simp only [equal,equalAll_iff,Terminal.equals_iff,decide_eq_true_eq] at h
      first
        | exact h ▸ (by constructor)
        | constructor; exact h
  · intro h
    cases h
    all_goals simp_all [equal,equalAll_iff,Terminal.equals_iff]

end Parser

namespace Grammar

/-- Parsers of a grammar with all that stands below them, in which the name that a node is told apart
by is the name of that node only, rules go by one name each, and words are texts. -/
structure Nodes (G : Grammar) (N : Parser → Prop) : Prop where
  has {p : Parser} : N p → G.Has p
  child {p q : Parser} : N p → q ∈ p.children → N q
  same {p q : Parser} {id : Ident} :
    N p → N q → p.identity = some id → q.identity = some id → p = q
  named {r : RuleId} {name name' : Text} : N (.rule r name) → N (.rule r name') → name = name'
  worded {id : Ident} {s : Terminal} : N (.terminal id s) → s.Worded

theorem map_isUnit_eq {G : Grammar} {ps qs : List Parser}
    (h : List.Forall₂ (fun p q => G.isUnit p = G.isUnit q) ps qs) :
    ps.map G.isUnit = qs.map G.isUnit := by
  rw [← List.forall₂_eq_eq_eq,List.forall₂_map_left_iff,List.forall₂_map_right_iff]
  exact h

namespace Nodes

variable {G : Grammar} {N : Parser → Prop}

/-- What holds of a node if it holds of all right below it holds of every node. -/
theorem downward (hN : G.Nodes N) {motive : Parser → Prop}
    (h : ∀ p, N p → (∀ q ∈ p.children, motive q) → motive p) {p : Parser} (hp : N p) : motive p :=
  Parser.Over.downward (motive := fun p => N p → motive p)
    (fun p _ ih hp => h p hp fun q hq => ih q (.child hq) (hN.child hp hq)) (hN.has hp) hp

theorem equal_self (hN : G.Nodes N) {p : Parser} (hp : N p) : p.equal p = true := by
  refine hN.downward (motive := fun p => p.equal p = true) (fun p hp ih => ?_) hp
  have hself {ps : List Parser} (hps : ∀ q ∈ ps, q ∈ p.children) :
      List.Forall₂ (fun p q => p.equal q = true) ps ps :=
    List.forall₂_same.mpr fun q hq => ih q (hps q hq)
  rw [Parser.equal_iff]
  cases p with
  | terminal id s => exact .terminal (.self (hN.worded hp) rfl)
  | seq id ps => exact .seq (hself fun _ hq => hq)
  | choice ps => exact .choice (hself fun _ hq => hq)
  | opt body => exact .opt (ih body (by simp [Parser.children]))
  | not body => exact .not (ih body (by simp [Parser.children]))
  | cut body => exact .cut (ih body (by simp [Parser.children]))
  | capture body => exact .capture (ih body (by simp [Parser.children]))
  | rep | map | flatMap | filter | rule | log => constructor

theorem equal_symm (hN : G.Nodes N) {p q : Parser} (hp : N p) (h : p.equal q = true) :
    q.equal p = true := by
  refine hN.downward (motive := fun p => ∀ q, p.equal q = true → q.equal p = true)
    (fun p hp ih q h => ?_) hp q h
  have hall {ps qs : List Parser} (hps : ∀ q ∈ ps, q ∈ p.children)
      (hpq : List.Forall₂ (fun p q => p.equal q = true) ps qs) :
      List.Forall₂ (fun p q => p.equal q = true) qs ps :=
    (forall₂_imp_mem hpq fun x hx y _ hxy => ih x (hps x hx) y hxy).flip
  rw [Parser.equal_iff] at h ⊢
  cases h with
  | terminal hs => exact .terminal ((hs.symm (hN.worded hp)).imp Eq.symm)
  | seq hpq => exact .seq (hall (fun _ hq => hq) hpq)
  | choice hpq => exact .choice (hall (fun _ hq => hq) hpq)
  | opt hpq => exact .opt (ih _ (by simp [Parser.children]) _ hpq)
  | not hpq => exact .not (ih _ (by simp [Parser.children]) _ hpq)
  | cut hpq => exact .cut (ih _ (by simp [Parser.children]) _ hpq)
  | capture hpq => exact .capture (ih _ (by simp [Parser.children]) _ hpq)
  | rep | map | flatMap | filter | rule | log => constructor

theorem equal_trans (hN : G.Nodes N) {p q r : Parser} (hp : N p) (h : p.equal q = true)
    (h' : q.equal r = true) : p.equal r = true := by
  refine hN.downward (motive := fun p => ∀ q r, p.equal q = true → q.equal r = true →
    p.equal r = true) (fun p hp ih q r h h' => ?_) hp q r h h'
  have hall {ps qs rs : List Parser} (hps : ∀ q ∈ ps, q ∈ p.children)
      (hpq : List.Forall₂ (fun p q => p.equal q = true) ps qs)
      (hqr : List.Forall₂ (fun p q => p.equal q = true) qs rs) :
      List.Forall₂ (fun p q => p.equal q = true) ps rs := by
    induction hpq generalizing rs with
    | nil => exact hqr
    | cons hxy _ ihs =>
      obtain ⟨hx,hps⟩ := List.forall_mem_cons.mp hps
      cases hqr with
      | cons hyz hqr => exact .cons (ih _ hx _ _ hxy hyz) (ihs hps hqr)
  rw [Parser.equal_iff] at h h' ⊢
  cases h with
  | terminal hs =>
    cases h' with
    | terminal ht =>
      exact .terminal ((hs.trans (hN.worded hp) ht).imp fun hids => hids.1.trans hids.2)
  | seq hpq => cases h' with | seq hqr => exact .seq (hall (fun _ hq => hq) hpq hqr)
  | choice hpq => cases h' with | choice hqr => exact .choice (hall (fun _ hq => hq) hpq hqr)
  | opt hpq => cases h' with | opt hqr => exact .opt (ih _ (by simp [Parser.children]) _ _ hpq hqr)
  | not hpq => cases h' with | not hqr => exact .not (ih _ (by simp [Parser.children]) _ _ hpq hqr)
  | cut hpq => cases h' with | cut hqr => exact .cut (ih _ (by simp [Parser.children]) _ _ hpq hqr)
  | capture hpq =>
    cases h' with | capture hqr => exact .capture (ih _ (by simp [Parser.children]) _ _ hpq hqr)
  | rep | map | flatMap | filter | rule | log =>
    cases h'
    constructor

/-- Nodes that are equal and told apart by a name are the same. -/
theorem eq_of_identity (hN : G.Nodes N) {p q : Parser} (hp : N p) (hq : N q)
    (h : p.equal q = true) (hid : p.identity.isSome = true) : p = q := by
  obtain ⟨id,hid⟩ := Option.isSome_iff_exists.mp hid
  refine hN.same hp hq hid ?_
  rw [Parser.equal_iff] at h
  cases h with
  | terminal hs =>
    cases hs with
    | literal | char | oneOf | compound => cases hid
    | _ he => exact he ▸ hid
  | rep | map | flatMap | filter | log => exact hid
  | seq | choice | opt | not | cut | capture | rule => cases hid

theorem isUnit_eq_of_equal (hN : G.Nodes N) {p q : Parser} (hp : N p) (hq : N q)
    (h : p.equal q = true) : G.isUnit p = G.isUnit q := by
  refine hN.downward (motive := fun p => ∀ q, N q → p.equal q = true → G.isUnit p = G.isUnit q)
    (fun p hp ih q hq h => ?_) hp q hq h
  have hall {ps qs : List Parser} (hps : ∀ x ∈ ps, x ∈ p.children) (hqs : ∀ y ∈ qs, y ∈ q.children)
      (hpq : List.Forall₂ (fun p q => p.equal q = true) ps qs) :
      ps.all G.isUnit = qs.all G.isUnit := by
    have hunits := forall₂_imp_mem hpq fun x hx y hy hxy =>
      ih x (hps x hx) y (hN.child hq (hqs y hy)) hxy
    simpa [List.all_map] using congrArg (List.all · id) (map_isUnit_eq hunits)
  have hsame := hN.eq_of_identity hp hq h
  rw [Parser.equal_iff] at h
  cases h with
  | terminal => simp
  | seq hpq =>
    rw [isUnit_seq,isUnit_seq]
    exact hall (fun _ hx => hx) (fun _ hy => hy) hpq
  | choice hpq =>
    rw [isUnit_choice,isUnit_choice]
    exact hall (fun _ hx => hx) (fun _ hy => hy) hpq
  | opt hpq | cut hpq =>
    have hbody := ih _ (by simp [Parser.children]) _ (hN.child hq (by simp [Parser.children])) hpq
    simpa using hbody
  | not => rw [isUnit_eq,isUnit_eq (.not _)]; rfl
  | capture => simp
  | rule => rw [isUnit_rule,isUnit_rule]
  | rep | map | flatMap | filter | log => rw [hsame rfl]

end Nodes

/-- Parsers over a grammar that are the same, or nodes that are equal. -/
def Twins (G : Grammar) (N : Parser → Prop) (p q : Parser) : Prop :=
  G.Has p ∧ G.Has q ∧ (p = q ∨ N p ∧ N q ∧ p.equal q = true)

section Twins

variable {G : Grammar} {N : Parser → Prop} {p q : Parser}

theorem twins_self (hp : G.Has p) : G.Twins N p p := ⟨hp,hp,.inl rfl⟩

theorem isUnit_of_twins (hN : G.Nodes N) (h : G.Twins N p q) : G.isUnit p = G.isUnit q := by
  rcases h.2.2 with rfl | ⟨hp,hq,heq⟩
  · rfl
  · exact hN.isUnit_eq_of_equal hp hq heq

theorem map_isUnit_of_twins (hN : G.Nodes N) {ps qs : List Parser}
    (h : List.Forall₂ (G.Twins N) ps qs) : ps.map G.isUnit = qs.map G.isUnit :=
  map_isUnit_eq (h.imp fun _ _ hpq => isUnit_of_twins hN hpq)

/-- A parser resembles itself. -/
theorem resembles_self (hp : G.Has p) : p.Resembles (fun _ => G.Twins N) True p := by
  have hchild {q : Parser} (hq : q ∈ p.children) : G.Twins N q q := twins_self (hp.children hq)
  have hall {ps : List Parser} (hps : ∀ q ∈ ps, q ∈ p.children) :
      List.Forall₂ (G.Twins N) ps ps :=
    List.forall₂_same.mpr fun q hq => hchild (hps q hq)
  cases p with
  | terminal => exact .terminal fun _ _ => rfl
  | seq id ps => exact .seq (hall fun _ hq => hq)
  | choice ps => exact .choice (hall fun _ hq => hq)
  | rep => exact .rep (hchild (by simp [Parser.children])) (hchild (by simp [Parser.children]))
  | opt => exact .opt (hchild (by simp [Parser.children]))
  | not => exact .not (hchild (by simp [Parser.children]))
  | cut => exact .cut (hchild (by simp [Parser.children]))
  | map id body f name =>
    refine .map (hchild (by simp [Parser.children])) fun v v' (hv : True → v = v') => ?_
    obtain rfl := hv trivial
    exact .refl fun _ _ _ => rfl
  | flatMap id body next name =>
    refine .flatMap (hchild (by simp [Parser.children])) fun v => .refl fun q hq => ?_
    exact twins_self (hp.next hq)
  | filter => exact .filter (hchild (by simp [Parser.children]))
  | capture => exact .capture (hchild (by simp [Parser.children]))
  | rule => exact .rule
  | log => exact .log (hchild (by simp [Parser.children]))

theorem resembles_of_twins (hN : G.Nodes N) (h : G.Twins N p q) :
    p.Resembles (fun _ => G.Twins N) True q := by
  obtain ⟨hhas,hhas',rfl | ⟨hp,hq,heq⟩⟩ := h
  · exact resembles_self hhas
  have hchild {x y : Parser} (hx : x ∈ p.children) (hy : y ∈ q.children)
      (hxy : x.equal y = true) : G.Twins N x y :=
    ⟨hhas.children hx,hhas'.children hy,.inr ⟨hN.child hp hx,hN.child hq hy,hxy⟩⟩
  have hall {ps qs : List Parser} (hps : ∀ x ∈ ps, x ∈ p.children) (hqs : ∀ y ∈ qs, y ∈ q.children)
      (hpq : List.Forall₂ (fun p q => p.equal q = true) ps qs) : List.Forall₂ (G.Twins N) ps qs :=
    forall₂_imp_mem hpq fun x hx y hy hxy => hchild (hps x hx) (hqs y hy) hxy
  have hsame := hN.eq_of_identity hp hq heq
  rw [Parser.equal_iff] at heq
  cases heq with
  | @terminal id id' s t hs =>
    refine .terminal fun x i => ?_
    cases hnode : s.isNode with
    | false => exact hs.scan_eq (hN.worded hp) hnode x i
    | true =>
      obtain ⟨-,rfl⟩ := Parser.terminal.inj (hsame (by simp [Parser.identity,hnode]))
      rfl
  | seq hpq => exact .seq (hall (fun _ hx => hx) (fun _ hy => hy) hpq)
  | choice hpq => exact .choice (hall (fun _ hx => hx) (fun _ hy => hy) hpq)
  | opt hpq => exact .opt (hchild (by simp [Parser.children]) (by simp [Parser.children]) hpq)
  | not hpq => exact .not (hchild (by simp [Parser.children]) (by simp [Parser.children]) hpq)
  | cut hpq => exact .cut (hchild (by simp [Parser.children]) (by simp [Parser.children]) hpq)
  | capture hpq =>
    exact .capture (hchild (by simp [Parser.children]) (by simp [Parser.children]) hpq)
  | rule => exact .rule
  | rep | map | flatMap | filter | log => exact hsame rfl ▸ resembles_self hhas

end Twins
end Grammar

namespace Grammar

variable {G : Grammar} {N : Parser → Prop} {w : World} {c : Context} {p q : Parser}

/-- Outcomes that are equal, down to the cut. -/
abbrev EndsAlike : Outcome → Outcome → Prop := Outcome.Agree True fun _ _ => True

/-- Twins mean alike, after records beside which hooks do the same about nodes that end alike. -/
theorem means_of_twins (hN : G.Nodes N) (n : Nat) (h : G.Twins N p q) (i : Int) :
    Run.Parallel (fun _ => True) (w.Indifferent (· = ·) EndsAlike) _ _ EndsAlike (G.means w c n p i)
      (G.means w c n q i) := by
  have hR := Run.parallel_lockstep (fun _ => True) (w.Indifferent (· = ·) EndsAlike)
  induction n generalizing p q i with
  | zero => exact hR.exhaust
  | succ n ih =>
    have hres := resembles_of_twins hN h
    refine hR.node_agree hres trivial i ?_ ?_ ?_ ?_
    · exact fun asked x y hxy j => (ih hxy j).imp fun _ _ ho => ho.imp fun _ => trivial
    · rintro id id' ps qs rfl rfl
      cases hres with
      | seq hpq => exact hR.done (map_isUnit_of_twins hN hpq)
    · rintro r name r' name' rfl rfl
      have hsame : Parser.rule r name = .rule r' name' := by
        rcases h.2.2 with heq | ⟨hp,hq,heq⟩
        · exact heq
        · rw [Parser.equal_iff] at heq
          cases heq
          rw [hN.named hp hq]
      cases hsame
      have hbody := ih (twins_self (N := N) (G.closed r h.1.mem_rules)) i
      cases ht : c.tracesRules with
      | some hook =>
        rw [observed_rule_some ht]
        exact fun s s' hs hm ht => hbody.traced (ht.traces rfl rfl hook name _ _) hs hm ht
      | none =>
        rw [observed_rule_none ht]
        exact hbody
    · rintro id x name hook id' y name' hook' rfl rfl
      have hsame : Parser.log id x name hook = .log id' y name' hook' := by
        rcases h.2.2 with heq | ⟨hp,hq,heq⟩
        · exact heq
        · exact hN.eq_of_identity hp hq heq rfl
      cases hsame
      have hx : x ∈ (Parser.log id x name hook).children := by simp [Parser.children]
      have hbody := ih (twins_self (N := N) (h.1.children hx)) i
      intro s s' hs hm ht
      exact hbody.traced (ht.traces_logged rfl rfl rfl hook name _ _) hs hm ht

theorem meaning_of_twins (hN : G.Nodes N) (hh : w.Overlooks EndsAlike) (h : G.Twins N p q) (i : Int)
    (s : State) : (G.meaning w c p i s).1.Like EndsAlike (G.meaning w c q i s).1 := by
  obtain ⟨deep,hp⟩ := means_settlesTo G w c p i s
  obtain ⟨deep',hq⟩ := means_settlesTo G w c q i s
  rw [← (hp (max deep deep') (by omega)).answer_eq,← (hq (max deep deep') (by omega)).answer_eq]
  exact (means_of_twins hN (max deep deep') h i s s trivial rfl (.steady hh rfl)).1

/-- Equality of parsers is an equivalence on the nodes of a grammar.  In all sessions equal parsers are
unit parsers together, and they parse every text alike: both succeed with the same value, position and
cut, or both fail at the same position with the same cut, or both raise the same fault.  Where a
supplier refuses at first, this is so of what returns. -/
theorem equal_parsers_behave_equally {refusals : RuleId → Nat} (hN : G.Nodes N)
    (hw : G.Supplied w refusals) (hh : w.Overlooks EndsAlike) :
    (∀ p, N p → p.equal p = true) ∧
      (∀ p q, N p → N q → p.equal q = true → q.equal p = true) ∧
      (∀ p q r, N p → N q → N r → p.equal q = true → q.equal r = true → p.equal r = true) ∧
      ∀ p q, N p → N q → p.equal q = true →
        (∃ u, (∀ limit s v, G.InSession w s → (Rules.isUnit w limit p s).1 = .value v ∨
            (Rules.isUnit w limit q s).1 = .value v → v = u) ∧
          ((∀ r ∈ G.rules, refusals r = 0) → ∃ deep, ∀ limit ≥ deep, ∀ s, G.InSession w s →
            (Rules.isUnit w limit p s).1 = .value u ∧ (Rules.isUnit w limit q s).1 = .value u)) ∧
        ∀ c i, ∃ a b, G.Promises w refusals c p i a ∧ G.Promises w refusals c q i b ∧
          a.Like EndsAlike b := by
  have hsteady : w.Steady := hh.steady fun o => by
    cases o with
    | success => exact .success fun _ => rfl
    | failure => exact .failure trivial
  refine ⟨fun p hp => hN.equal_self hp,fun p q hp _ h => hN.equal_symm hp h,
    fun p q r hp _ _ h h' => hN.equal_trans hp h h',fun p q hp hq h => ⟨?_,fun c i => ?_⟩⟩
  · have hsame := hN.isUnit_eq_of_equal hp hq h
    refine ⟨G.isUnit p,fun limit s v hs hv => ?_,fun h0 => ?_⟩
    · rcases hv with hv | hv
      · exact isUnit_of_answer hw (hN.has hp) (hs.settled hw) hv
      · exact (isUnit_of_answer hw (hN.has hq) (hs.settled hw) hv).trans hsame.symm
    · have hw' : G.Supplied w fun _ => 0 :=
        fun r hr => ⟨by simp,h0 r hr ▸ (hw r hr).gives⟩
      refine ⟨max p.size q.size + G.weight * G.pending [],fun limit hl s hs => ?_⟩
      obtain ⟨_,hunit,-⟩ := isUnit_exact hw' (hN.has hp) (by omega : _ ≤ limit) (hs.settled hw')
      obtain ⟨_,hunit',-⟩ := isUnit_exact hw' (hN.has hq) (by omega : _ ≤ limit) (hs.settled hw')
      exact ⟨by rw [hunit],by rw [hunit',hsame]⟩
  · exact ⟨_,_,(accounts_meaning hw (hN.has hp) i).promises hsteady,
      (accounts_meaning hw (hN.has hq) i).promises hsteady,
      meaning_of_twins hN hh ⟨hN.has hp,hN.has hq,.inr ⟨hp,hq,h⟩⟩ i {}⟩

/-- A sign or none and as many digits as there are, where the two signs stand in either order. -/
def signed : Grammar where
  rules := [.named "digit"]
  body _ := .capture (.terminal (.named "character") (.oneOf "01".toList))
  parts
    | .named "plus first" => some [.opt plusOrMinus,digits]
    | .named "minus first" => some [.opt minusOrPlus,digits]
    | _ => none
  closed := by simpa using Parser.Over.capture .terminal
where
  plusOrMinus : Parser := .terminal (.named "plus or minus") (.oneOf "+-".toList)
  minusOrPlus : Parser := .terminal (.named "minus or plus") (.oneOf "-+".toList)
  digit : Parser := .rule (.named "digit") "digit".toList
  gap : Parser := .terminal (.named "gap") .pass
  digits : Parser := .rep (.named "digits") digit (.whole 0) none gap
  plusFirst : Parser := .seq (.named "plus first") [.opt plusOrMinus,digits]
  minusFirst : Parser := .seq (.named "minus first") [.opt minusOrPlus,digits]
  nodes : List Parser := [plusFirst,minusFirst,.opt plusOrMinus,.opt minusOrPlus,plusOrMinus,
    minusOrPlus,digits,digit,gap]

theorem nodes_signed : signed.Nodes (· ∈ signed.nodes) := by
  have hplus : signed.Has (.opt signed.plusOrMinus) := .opt .terminal
  have hminus : signed.Has (.opt signed.minusOrPlus) := .opt .terminal
  have hdigit : signed.Has signed.digit := .rule (by simp [signed])
  have hdigits : signed.Has signed.digits := .rep hdigit .terminal
  constructor
  · intro p hp
    simp only [signed.nodes,List.mem_cons,List.not_mem_nil,or_false] at hp
    rcases hp with rfl | rfl | rfl | rfl | rfl | rfl | rfl | rfl | rfl
    · exact .seq rfl (List.forall_mem_cons.mpr ⟨hplus,List.forall_mem_singleton.mpr hdigits⟩)
    · exact .seq rfl (List.forall_mem_cons.mpr ⟨hminus,List.forall_mem_singleton.mpr hdigits⟩)
    all_goals first | assumption | exact .terminal
  · intro p q hp hq
    simp only [signed.nodes,List.mem_cons,List.not_mem_nil,or_false] at hp
    rcases hp with rfl | rfl | rfl | rfl | rfl | rfl | rfl | rfl | rfl
    all_goals simp_all [Parser.children,signed.plusFirst,signed.minusFirst,signed.nodes,
      signed.digits,signed.plusOrMinus,signed.minusOrPlus,signed.digit,signed.gap]
    all_goals tauto
  · intro p q id hp hq hid hid'
    -- only the repetition of digits and the gap between them have a name
    have hnamed {x : Parser} (hx : x ∈ signed.nodes) (h : x.identity = some id) :
        x = signed.digits ∨ x = signed.gap := by
      simp only [signed.nodes,List.mem_cons,List.not_mem_nil,or_false] at hx
      rcases hx with rfl | rfl | rfl | rfl | rfl | rfl | rfl | rfl | rfl
      all_goals first | exact .inl rfl | exact .inr rfl | cases h
    rcases hnamed hp hid with rfl | rfl <;> rcases hnamed hq hid' with rfl | rfl
    all_goals first | rfl | exact absurd (hid.trans hid'.symm) (by decide)
  · intro r name name' hp hq
    simp only [signed.nodes,signed.plusFirst,signed.minusFirst,signed.digits,signed.plusOrMinus,
      signed.minusOrPlus,signed.digit,signed.gap,List.mem_cons,List.not_mem_nil,reduceCtorEq,
      Parser.rule.injEq,false_or,or_false] at hp hq
    rw [hp.2,hq.2]
  · intro id s hs v hv
    subst hv
    simp [signed.nodes,signed.plusFirst,signed.minusFirst,
      signed.digits,signed.plusOrMinus,signed.minusOrPlus,signed.digit,signed.gap] at hs

/-- The order of the signs does not count: the two sequences are equal, and so they parse alike. -/
theorem signs_in_either_order :
    let w : World := ⟨fun r _ => .ok (signed.body r),fun _ => .recording none,fun _ => 0⟩
    let c : Context := ⟨"-10".toList,none,none⟩
    signed.plusFirst.equal signed.minusFirst = true ∧
      ∃ a b, signed.ParsesTo w c signed.plusFirst 0 a ∧ signed.ParsesTo w c signed.minusFirst 0 b ∧
        a.Like EndsAlike b := by
  intro w c
  have hequal : signed.plusFirst.equal signed.minusFirst = true := by decide
  have hw : signed.Supplied w fun _ => 0 := fun r _ => ⟨by simp,rfl⟩
  obtain ⟨-,-,-,hsound⟩ := equal_parsers_behave_equally nodes_signed hw
    (.inl fun _ => HookKind.overlooks none (.recorder none) _)
  obtain ⟨-,hparse⟩ := hsound signed.plusFirst signed.minusFirst (by simp [signed.nodes])
    (by simp [signed.nodes]) hequal
  obtain ⟨a,b,ha,hb,hab⟩ := hparse c 0
  exact ⟨hequal,a,b,ha.reached fun _ _ => rfl,hb.reached fun _ _ => rfl,hab⟩

end Grammar
end Peg
