import Peg.Proofs.Insertions
import Peg.Proofs.Limits

/-! Sequences in brackets.
Operands are bracketed by taking several together or by joining two, where what stands at the left
is extended.  A sequence does what its leaves do in turn, and packs their values as its brackets
say.  Main statement: however the operands are bracketed, the same leaves are run with the same end,
and the same values are read off the value. -/
namespace Peg

/-- A way of bracketing operands: one operand alone, several taken together, or two joined. -/
inductive Bracketing
  | one (p : Parser)
  | group (id : Ident) (inner : List Bracketing)
  | join (id : Ident) (left right : Bracketing)

namespace Bracketing

variable {α : Type}

mutual
/-- What becomes of operands when groups and joins are given a meaning. -/
def fold (one : Parser → α) (group : Ident → List α → α) (join : Ident → α → α → α) :
    Bracketing → α
  | .one p => one p
  | .group id inner => group id (foldAll one group join inner)
  | .join id left right => join id (fold one group join left) (fold one group join right)

def foldAll (one : Parser → α) (group : Ident → List α → α) (join : Ident → α → α → α) :
    List Bracketing → List α
  | [] => []
  | B :: Bs => fold one group join B :: foldAll one group join Bs
end

/-- The operands in order. -/
def operands : Bracketing → List Parser :=
  fold (fun p => [p]) (fun _ => List.flatten) fun _ ps qs => ps ++ qs

/-- The operands as a sequence of sequences. -/
def toSequence : Bracketing → Parser := fold (fun p => p) .seq .andThen

/-- The operands as a choice of choices. -/
def toChoice : Bracketing → Parser := fold (fun p => p) (fun _ => .choice) fun _ => .orElse

/-- What folds two ways agree on for operands, groups and joins they agree on for every way of
bracketing. -/
theorem fold_eq {β : Type} {one : Parser → α} {group : Ident → List α → α}
    {join : Ident → α → α → α} {one' : Parser → β} {group' : Ident → List β → β}
    {join' : Ident → β → β → β} {R : α → β → Prop} (hone : ∀ p, R (one p) (one' p))
    (hgroup : ∀ id xs ys, List.Forall₂ R xs ys → R (group id xs) (group' id ys))
    (hjoin : ∀ id x y x' y', R x x' → R y y' → R (join id x y) (join' id x' y')) (B : Bracketing) :
    R (B.fold one group join) (B.fold one' group' join') := by
  refine fold.induct (fun B => R (B.fold one group join) (B.fold one' group' join'))
    (fun Bs => List.Forall₂ R (foldAll one group join Bs) (foldAll one' group' join' Bs))
    ?_ ?_ ?_ ?_ ?_ B
  · exact fun p => hone p
  · exact fun id inner ih => hgroup id _ _ ih
  · exact fun id left right ihl ihr => hjoin id _ _ _ _ ihl ihr
  · exact .nil
  · exact fun B Bs ih ihs => .cons ih ihs

end Bracketing

namespace Parser

mutual
/-- The parts of a sequence that are no sequences, through all sequences inside it. -/
def leaves : Parser → List Parser
  | seq _ ps => leavesAll ps
  | p => [p]

def leavesAll : List Parser → List Parser
  | [] => []
  | p :: ps => leaves p ++ leavesAll ps
end

@[simp] theorem leaves_seq (id : Ident) (ps : List Parser) : (seq id ps).leaves = leavesAll ps := by
  rw [leaves]

@[simp] theorem leavesAll_nil : leavesAll [] = [] := by rw [leavesAll]

@[simp] theorem leavesAll_cons (p : Parser) (ps : List Parser) :
    leavesAll (p :: ps) = p.leaves ++ leavesAll ps := by
  rw [leavesAll]

@[simp] theorem leavesAll_append (ps qs : List Parser) :
    leavesAll (ps ++ qs) = leavesAll ps ++ leavesAll qs := by
  induction ps with
  | nil => rfl
  | cons p ps ih => simp [ih]

@[simp] theorem leavesAll_factors (p : Parser) : leavesAll p.factors = p.leaves := by
  rcases p.factors_cases with hp | ⟨id,hp⟩
  · simp [hp]
  · conv_rhs => rw [hp]
    simp

@[simp] theorem leaves_andThen (id : Ident) (p q : Parser) :
    (p.andThen id q).leaves = p.leaves ++ q.leaves := by
  simp [andThen_eq]

/-- However operands are bracketed, their leaves are those of the sequence. -/
theorem leaves_toSequence (B : Bracketing) : B.toSequence.leaves = leavesAll B.operands := by
  refine Bracketing.fold_eq (R := fun (p : Parser) ps => p.leaves = leavesAll ps) ?_ ?_ ?_ B
  · exact fun p => by simp
  · intro id ps qss h
    rw [leaves_seq]
    induction h with
    | nil => rfl
    | cons hp _ ih => simp [hp,ih]
  · intro id p q ps qs hp hq
    simp [hp,hq]

end Parser

/-- The values that a pack of so many was made of. -/
def Value.unpack : Nat → Value → List Value
  | 0, _ => []
  | 1, v => [v]
  | _, .tuple vs => vs
  | _, _ => []

theorem Value.unpack_pack (vs : List Value) : (pack vs).unpack vs.length = vs := by
  match vs with
  | [] => rfl
  | [v] => rfl
  | _ :: _ :: _ => rfl

/-- What parsers come to that are run in turn: the values that are kept, or what the one that failed
handed on; and whether a cut was seen. -/
inductive Passage
  | through (values : List Value) (stop : Int) (cut : Bool)
  | broken (index : Int) (cause : Parser) (cut : Bool)

namespace Passage

/-- A passage after values and a cut that were seen before it. -/
def after (values : List Value) (seen : Bool) : Passage → Passage
  | through vs j cut => through (values ++ vs) j (seen || cut)
  | broken j cause cut => broken j cause (seen || cut)

theorem after_after (us vs : List Value) (seen seen' : Bool) (x : Passage) :
    (x.after vs seen').after us seen = x.after (us ++ vs) (seen || seen') := by
  cases x <;> simp [after,Bool.or_assoc]

theorem after_nothing (x : Passage) : x.after [] false = x := by
  cases x <;> simp [after]

/-- What comes of a passage when it is gone on from where it stops. -/
def next (f : Int → Run Passage) : Passage → Run Passage
  | through vs j cut => do
    let x ← f j
    pure (x.after vs cut)
  | broken j cause cut => pure (.broken j cause cut)

theorem next_after (f : Int → Run Passage) (vs : List Value) (seen : Bool) (x : Passage) :
    (x.after vs seen).next f = x.next f >>= fun y => pure (y.after vs seen) := by
  cases x with
  | through us j cut =>
    change (f j >>= fun y => pure (y.after (vs ++ us) (seen || cut))) =
      (f j >>= fun y => pure (y.after us cut)) >>= fun y => pure (y.after vs seen)
    simp only [bind_assoc,pure_bind,after_after]
  | broken j cause cut => rfl

end Passage

/-- Outcomes with the same end: at the same position with the same cut, and successes whose values
read the same or failures with the same cause. -/
inductive Outcome.Regrouped (read read' : Value → List Value) : Outcome → Outcome → Prop
  | success {v v' : Value} {j : Int} {cut : Bool} :
    read v = read' v' → Regrouped read read' (.success v j cut) (.success v' j cut)
  | failure {j : Int} {cause : Parser} {cut : Bool} :
    Regrouped read read' (.failure j cause cut) (.failure j cause cut)

namespace Grammar

variable {G : Grammar} {w : World} {refusals : RuleId → Nat} {c : Context} {p : Parser}
  {ps qs : List Parser} {i : Int}

mutual
/-- The values of the leaves that are no unit parsers, read off the value of a sequence. -/
noncomputable def leafValues (G : Grammar) : Parser → Value → List Value
  | .seq _ ps, v => leafValuesAll G ps (v.unpack (ps.countP (!G.isUnit ·)))
  | p, v => if G.isUnit p then [] else [v]

/-- The same for parts of a sequence, from the values of those that are no unit parsers. -/
noncomputable def leafValuesAll (G : Grammar) : List Parser → List Value → List Value
  | [], _ => []
  | p :: ps, vs =>
    if G.isUnit p then leafValuesAll G ps vs
    else vs.head?.elim [] (leafValues G p) ++ leafValuesAll G ps vs.tail
end

theorem leafValuesAll_of_units (h : ∀ p ∈ ps, G.isUnit p = true) (vs : List Value) :
    G.leafValuesAll ps vs = [] := by
  induction ps with
  | nil => rw [leafValuesAll]
  | cons p ps ih =>
    rw [leafValuesAll,if_pos (h p (by simp))]
    exact ih fun q hq => h q (by simp [hq])

/-- A unit parser has no leaf whose value would be kept. -/
theorem leafValues_of_unit (h : G.isUnit p = true) (v : Value) : G.leafValues p v = [] := by
  cases p with
  | seq id ps =>
    rw [isUnit_seq,List.all_eq_true] at h
    rw [leafValues]
    exact leafValuesAll_of_units h _
  | _ =>
    rw [leafValues,if_pos h]
    exact nofun

/-- Runs parsers one after another, and keeps the values of those that are no unit parsers. -/
noncomputable def inTurn (G : Grammar) (step : Parser → Int → Run Outcome) :
    List Parser → Int → Run Passage
  | [], i => pure (.through [] i false)
  | p :: ps, i => do
    match ← step p i with
    | .failure j cause cut => pure (.broken j cause cut)
    | .success v j cut =>
      let x ← G.inTurn step ps j
      pure (x.after (if G.isUnit p then [] else [v]) cut)

variable {step : Parser → Int → Run Outcome}

theorem inTurn_append (ps qs : List Parser) (i : Int) :
    G.inTurn step (ps ++ qs) i = G.inTurn step ps i >>= Passage.next (G.inTurn step qs) := by
  induction ps generalizing i with
  | nil =>
    simp [inTurn,Passage.next,Passage.after_nothing]
  | cons p ps ih =>
    simp only [List.cons_append,inTurn,bind_assoc]
    refine congrArg (step p i >>= ·) (funext fun o => ?_)
    cases o with
    | failure j cause cut => rfl
    | success v j cut =>
      simp only [ih,bind_assoc,pure_bind,Passage.next_after]

/-- An outcome beside the passage through the leaves. -/
inductive Passes (G : Grammar) (p : Parser) : Outcome → Passage → Prop
  | through {v : Value} {vs : List Value} {j : Int} {cut : Bool} :
    G.leafValues p v = vs → Passes G p (.success v j cut) (.through vs j cut)
  | broken {j : Int} {cause : Parser} {cut : Bool} :
    Passes G p (.failure j cause cut) (.broken j cause cut)

theorem Passes.regrouped {q : Parser} {o o' : Outcome} {x : Passage} (h : G.Passes p o x)
    (h' : G.Passes q o' x) : o.Regrouped (G.leafValues p) (G.leafValues q) o' := by
  cases h with
  | through hv =>
    cases h' with
    | through hv' => exact .success (hv.trans hv'.symm)
  | broken =>
    cases h'
    exact .failure

/-- An outcome of the rest of a sequence, after values and with a cut seen before, beside the
passage through the leaves of that rest. -/
inductive PassesAll (G : Grammar) (ps : List Parser) (values : List Value) (seen : Bool) :
    Outcome → Passage → Prop
  | through {vs : List Value} {j : Int} {cut : Bool} : vs.length = ps.countP (!G.isUnit ·) →
    PassesAll G ps values seen (.success (pack (values.reverse ++ vs)) j (seen || cut))
      (.through (G.leafValuesAll ps vs) j cut)
  | broken {j : Int} {cause : Parser} {cut : Bool} :
    PassesAll G ps values seen (.failure j cause (seen || cut)) (.broken j cause cut)

/-- What comes after one part of a sequence passes through its leaves after those of that part. -/
theorem PassesAll.cons {values : List Value} {seen cut : Bool} {v : Value} {o : Outcome}
    {x : Passage}
    (h : G.PassesAll ps (if G.isUnit p then values else v :: values) (seen || cut) o x) :
    G.PassesAll (p :: ps) values seen o (x.after (G.leafValues p v) cut) := by
  cases h with
  | broken =>
    rw [Bool.or_assoc]
    exact .broken
  | @through vs j cut' hvs =>
    rw [Bool.or_assoc,Passage.after]
    cases hu : G.isUnit p with
    | true =>
      have hleaves : G.leafValues p v ++ G.leafValuesAll ps vs = G.leafValuesAll (p :: ps) vs := by
        rw [leafValues_of_unit hu,leafValuesAll,if_pos hu,List.nil_append]
      rw [hleaves,if_pos rfl]
      exact .through (by simpa [hu] using hvs)
    | false =>
      have hleaves : G.leafValues p v ++ G.leafValuesAll ps vs =
          G.leafValuesAll (p :: ps) (v :: vs) := by
        rw [leafValuesAll,if_neg (by simp [hu])]
        rfl
      have hvalues : (v :: values).reverse ++ vs = values.reverse ++ v :: vs := by simp
      rw [hleaves,if_neg (by simp),hvalues]
      exact .through (by simpa [hu] using hvs)

/-- A sequence passes through the leaves of its parts if each part passes through its own. -/
theorem sequence_passes (ps : List Parser)
    (h : ∀ p ∈ ps, ∀ i, Run.Abreast _ _ (G.Passes p) (step p i) (G.inTurn step p.leaves i))
    (values : List Value) (seen : Bool) (i : Int) :
    Run.Abreast _ _ (G.PassesAll ps values seen)
      (Parsing.sequence step (ps.zip (ps.map G.isUnit)) values seen i)
      (G.inTurn step (Parser.leavesAll ps) i) := by
  induction ps generalizing values seen i with
  | nil =>
    have hdone : G.PassesAll [] values seen
        (.success (pack (values.reverse ++ [])) i (seen || false))
        (.through (G.leafValuesAll [] []) i false) := .through rfl
    rw [List.append_nil,Bool.or_false,leafValuesAll] at hdone
    exact Run.abreast_lockstep.done hdone
  | cons p ps ih =>
    rw [Parser.leavesAll_cons,inTurn_append]
    refine Run.abreast_lockstep.bind (h p (by simp) i) fun o x hox => ?_
    cases hox with
    | broken => exact Run.abreast_lockstep.done .broken
    | through hv =>
      subst hv
      exact (ih (fun q hq => h q (by simp [hq])) _ _ _).then fun _ _ => PassesAll.cons

/-- A sequence means what its parts mean in turn. -/
theorem meaning_seq (id : Ident) (ps : List Parser) (i : Int) :
    Run.Abreast _ _ (· = ·) (G.meaning w c (.seq id ps) i)
      (Parsing.sequence (G.meaning w c) (ps.zip (ps.map G.isUnit)) [] false i) :=
  meaning_ends (.seq id ps) i

/-- A parser that is no sequence is its only leaf. -/
theorem leaf_passes (h : ∀ id ps, p ≠ .seq id ps) (i : Int) :
    Run.Abreast _ _ (G.Passes p) (step p i) (G.inTurn step [p] i) := by
  have hvalues (v : Value) : G.leafValues p v = if G.isUnit p then [] else [v] := by
    rw [leafValues]
    exact h
  intro s
  rw [inTurn,Run.bind_apply]
  rcases step p i s with ⟨o | fault | _,u⟩
  · cases o with
    | failure j cause cut => exact .value .broken
    | success v j cut =>
      change Run.Ends _ _ (.value (Passage.through (_ ++ []) j (cut || false)),u)
      rw [List.append_nil,Bool.or_false]
      exact .value (.through (hvalues v))
  · exact .raised
  · exact .exhausted

/-- A sequence passes through its leaves if each of its parts does. -/
theorem seq_passes (id : Ident)
    (h : ∀ p ∈ ps, ∀ i,
      Run.Abreast _ _ (G.Passes p) (G.meaning w c p i) (G.inTurn (G.meaning w c) p.leaves i))
    (i : Int) : Run.Abreast _ _ (G.Passes (.seq id ps)) (G.meaning w c (.seq id ps) i)
      (G.inTurn (G.meaning w c) (Parser.leavesAll ps) i) := by
  intro s
  refine (meaning_seq id ps i s).trans (sequence_passes ps h [] false i s) fun o o' x ho hx => ?_
  subst ho
  cases hx with
  | broken =>
    rw [Bool.false_or]
    exact .broken
  | @through vs j cut hvs =>
    have hvalues : G.leafValues (.seq id ps) (pack vs) = G.leafValuesAll ps vs := by
      rw [leafValues,← hvs,Value.unpack_pack]
    rw [Bool.false_or,List.reverse_nil,List.nil_append]
    exact .through hvalues

/-- Every parser does what its leaves do in turn. -/
theorem passes (p : Parser) (i : Int) :
    Run.Abreast _ _ (G.Passes p) (G.meaning w c p i) (G.inTurn (G.meaning w c) p.leaves i) := by
  let Own (p : Parser) : Prop := ∀ i,
    Run.Abreast _ _ (G.Passes p) (G.meaning w c p i) (G.inTurn (G.meaning w c) p.leaves i)
  refine Parser.leaves.induct Own (fun ps => ∀ p ∈ ps, Own p) ?_ ?_ ?_ ?_ p i
  · intro id ps ih i
    rw [Parser.leaves_seq]
    exact seq_passes id ih i
  · intro p h i
    rw [Parser.leaves]
    · exact leaf_passes h i
    · exact h
  · exact List.forall_mem_nil _
  · exact fun p ps ihp ihps => List.forall_mem_cons.mpr ⟨ihp,ihps⟩

/-- Parsers that succeed when each is parsed alone from where the one before it stopped, after what
hooks were told until then: the values of those that are no unit parsers, where the last one stopped,
and whether any saw a cut. -/
inductive Strung (G : Grammar) (w : World) (refusals : RuleId → Nat) (c : Context) :
    List Parser → Int → State → List Value → Int → Bool → Prop
  | nil {i : Int} {s : State} : Strung G w refusals c [] i s [] i false
  | cons {p : Parser} {ps : List Parser} {i j k : Int} {s u : State} {x : Run Outcome} {v : Value}
    {vs : List Value} {cut cut' : Bool} : G.Accounts w refusals c p i x →
      x s = (.value (.success v j cut),u) → Strung G w refusals c ps j u vs k cut' →
        Strung G w refusals c (p :: ps) i s ((if G.isUnit p then [] else [v]) ++ vs) k (cut || cut')

theorem Has.leaves (hp : G.Has p) : ∀ q ∈ p.leaves, G.Has q := by
  refine Parser.leaves.induct (fun p => G.Has p → ∀ q ∈ p.leaves, G.Has q)
    (fun ps => (∀ p ∈ ps, G.Has p) → ∀ q ∈ Parser.leavesAll ps, G.Has q) ?_ ?_ ?_ ?_ p hp
  · intro id ps ih hp
    rw [Parser.leaves_seq]
    exact ih fun q hq => hp.children hq
  · intro p h hp
    rw [Parser.leaves]
    · exact List.forall_mem_singleton.mpr hp
    · exact h
  · exact fun _ => List.forall_mem_nil _
  · intro p ps ihp ihps hps
    rw [Parser.leavesAll_cons]
    exact List.forall_mem_append.mpr ⟨ihp (hps p (by simp)),ihps fun q hq => hps q (by simp [hq])⟩

theorem strung_of_inTurn (hw : G.Supplied w refusals) (hps : ∀ p ∈ ps, G.Has p) {s u : State}
    {vs : List Value} {j : Int} {cut : Bool}
    (h : G.inTurn (G.meaning w c) ps i s = (.value (.through vs j cut),u)) :
    G.Strung w refusals c ps i s vs j cut := by
  induction ps generalizing i s vs cut with
  | nil =>
    cases h
    exact .nil
  | cons p ps ih =>
    rw [inTurn] at h
    obtain ⟨o,t,ho,h⟩ := Run.bind_eq_value_iff.mp h
    cases o with
    | failure => cases h
    | success v l cut =>
      obtain ⟨x,t',hx,h⟩ := Run.bind_eq_value_iff.mp h
      cases x with
      | broken => cases h
      | through vs k cut' =>
        cases h
        exact .cons (accounts_meaning hw (hps p (by simp)) i) ho
          (ih (fun q hq => hps q (by simp [hq])) hx)

/-- However operands are bracketed into sequences, their leaves are run with the same end, and the
values of the leaves can be read off. -/
theorem regrouped (hw : G.Supplied w refusals) {B B' : Bracketing} (h : B.operands = B'.operands)
    (hB : G.Has B.toSequence) (hB' : G.Has B'.toSequence) (i : Int) :
    ∃ x y, G.Accounts w refusals c B.toSequence i x ∧ G.Accounts w refusals c B'.toSequence i y ∧
      ∀ s, Run.Ends (Outcome.Regrouped (G.leafValues B.toSequence) (G.leafValues B'.toSequence))
          (x s) (y s) ∧
        ∀ v j cut u, x s = (.value (.success v j cut),u) →
          G.Strung w refusals c (Parser.leavesAll B.operands) i s (G.leafValues B.toSequence v) j
            cut := by
  have hpasses := passes (G := G) (w := w) (c := c) B.toSequence i
  have hpasses' := passes (G := G) (w := w) (c := c) B'.toSequence i
  have hleaves := hB.leaves
  rw [Parser.leaves_toSequence] at hpasses hpasses' hleaves
  -- both ways of brackets are now beside one passage
  rw [← h] at hpasses'
  refine ⟨_,_,accounts_meaning hw hB i,accounts_meaning hw hB' i,fun s => ⟨?_,?_⟩⟩
  · exact (hpasses s).trans (hpasses' s).flip fun _ _ _ => Passes.regrouped
  · intro v j cut u hv
    have hends := hpasses s
    rw [hv] at hends
    generalize hx : G.inTurn (G.meaning w c) (Parser.leavesAll B.operands) i s = x at hends
    cases hends with
    | value ho =>
      cases ho with
      | through hvs => exact hvs ▸ strung_of_inTurn hw hleaves hx

end Grammar

namespace Expr

variable {names : Names} {id : Ident} {x y : Parser ⊕ Text} {xs : List (Parser ⊕ Text)}

/-- An operand that is a parser or a word. -/
def ofOperand : Parser ⊕ Text → Expr := Sum.elim .given .text

/-- The parser that such an operand is taken for at its place. -/
def taken (id : Ident) (k : Nat) : Parser ⊕ Text → Parser :=
  Sum.elim (fun p => p) (.word (.part k id))

def takenAll (id : Ident) : Nat → List (Parser ⊕ Text) → List Parser
  | _, [] => []
  | k, x :: xs => taken id k x :: takenAll id (k + 1) xs

/-- What can stand first and second in a product: one of both is a parser, and the first is no
sequence. -/
def Opens : Parser ⊕ Text → Parser ⊕ Text → Prop
  | .inl p, _ => ∀ a ps, p ≠ .seq a ps
  | .inr _, .inl _ => True
  | .inr _, .inr _ => False

/-- Operands are added one after another to a sequence, each as one part. -/
theorem buildOnto_taken (xs : List (Parser ⊕ Text)) (ps : List Parser) (k : Nat) :
    buildOnto names id .times (.parser (.seq id ps)) k (xs.map ofOperand) =
      .ok (.parser (.seq id (ps ++ takenAll id k xs))) := by
  induction xs generalizing ps k with
  | nil => simp [buildOnto,takenAll]
  | cons x xs ih =>
    have hjoined : ps ++ takenAll id k (x :: xs) =
        ps ++ [taken id k x] ++ takenAll id (k + 1) xs := by
      simp [takenAll]
    rw [hjoined,← ih]
    cases x <;> rfl

theorem buildAll_ofOperand (xs : List (Parser ⊕ Text)) (k : Nat) :
    buildAll names id k (xs.map ofOperand) = .ok (xs.map (Sum.elim .parser .text)) := by
  induction xs generalizing k with
  | nil => rfl
  | cons x xs ih =>
    rw [List.map_cons,buildAll,ih (k + 1)]
    cases x <;> rfl

theorem toParsers_taken (xs : List (Parser ⊕ Text)) (k : Nat) :
    toParsers id k (xs.map (Sum.elim .parser .text)) = .ok (takenAll id k xs) := by
  induction xs generalizing k with
  | nil => rfl
  | cons x xs ih =>
    rw [List.map_cons,toParsers,ih (k + 1)]
    cases x <;> rfl

theorem seqOf_taken (xs : List (Parser ⊕ Text)) :
    (seqOf (xs.map ofOperand)).toParser names id = .ok (.seq id (takenAll id 0 xs)) := by
  rw [toParser,build,buildAll_ofOperand]
  show (toParsers id 0 (xs.map (Sum.elim .parser .text)) >>= fun ps =>
    .ok (.parser (.seq id ps))) >>= Operand.receiver = _
  rw [toParsers_taken]
  rfl

/-- A product that begins with no sequence has its operands for parts. -/
theorem product_taken (h : Opens x y) (xs : List (Parser ⊕ Text)) :
    (product ((x :: y :: xs).map ofOperand)).toParser names id =
      .ok (.seq id (takenAll id 0 (x :: y :: xs))) := by
  have hrest :
      buildOnto names id .times (.parser (.seq id [taken id 0 x,taken id 1 y])) 2
        (xs.map ofOperand) = .ok (.parser (.seq id (takenAll id 0 (x :: y :: xs)))) :=
    buildOnto_taken xs [taken id 0 x,taken id 1 y] 2
  have hjoin : (taken id 0 x).andThen id (taken id 1 y) = .seq id [taken id 0 x,taken id 1 y] := by
    cases x with
    | inl p =>
      rcases p.factors_cases with hp | ⟨a,hp⟩
      · rw [Parser.andThen_eq]
        exact congrArg (fun ps => Parser.seq id (ps ++ [taken id 1 y])) hp
      · exact absurd hp (h a p.factors)
    | inr u => rfl
  have hbuild : (product ((x :: y :: xs).map ofOperand)).build names id =
      buildOnto names id .times (.parser ((taken id 0 x).andThen id (taken id 1 y))) 2
        (xs.map ofOperand) := by
    rw [List.map_cons,List.map_cons,build]
    cases x with
    | inl p => cases y <;> rfl
    | inr u =>
      cases y with
      | inl q => rfl
      | inr u' => exact h.elim
  rw [toParser,hbuild,hjoin,hrest]
  rfl

/-- The parsers for a word are equal, wherever they are built. -/
theorem word_equal (id id' : Ident) (u : Text) :
    (Parser.word id u).equal (.word id' u) = true := by
  have hequals : (Terminal.ofWord u).Equals (id = id') (.ofWord u) := by
    match u with
    | [_] => exact .char
    | [] | _ :: _ :: _ => exact .literal
  exact Parser.equal_iff.mpr (.terminal hequals)

/-- What operands are taken for at one place and at another is the same, or equal. -/
theorem takenAll_equal (id id' : Ident) (xs : List (Parser ⊕ Text)) (k : Nat) :
    List.Forall₂ (fun p q => p = q ∨ p.equal q = true) (takenAll id k xs) (takenAll id' k xs) := by
  induction xs generalizing k with
  | nil => exact .nil
  | cons x xs ih =>
    refine .cons ?_ (ih (k + 1))
    cases x with
    | inl p => exact .inl rfl
    | inr u => exact .inr (word_equal _ _ u)

theorem equal_self_of_mem_takenAll (h : ∀ p, .inl p ∈ xs → p.equal p = true) {k : Nat} :
    ∀ p ∈ takenAll id k xs, p.equal p = true := by
  induction xs generalizing k with
  | nil => exact nofun
  | cons x xs ih =>
    refine List.forall_mem_cons.mpr ⟨?_,ih fun p hp => h p (by simp [hp])⟩
    cases x with
    | inl p => exact h p (by simp)
    | inr u => exact word_equal _ _ u

/-- A product that begins with no sequence is the sequence of its operands: its parts are the same,
or equal words. -/
theorem product_eq_seqOf (names : Names) (id id' : Ident) (h : Opens x y)
    (xs : List (Parser ⊕ Text)) :
    ∃ ps qs, (product ((x :: y :: xs).map ofOperand)).toParser names id = .ok (.seq id ps) ∧
      (seqOf ((x :: y :: xs).map ofOperand)).toParser names id' = .ok (.seq id' qs) ∧
      List.Forall₂ (fun p q => p = q ∨ p.equal q = true) ps qs ∧
      ((∀ p, .inl p ∈ x :: y :: xs → p.equal p = true) →
        (Parser.seq id ps).equal (.seq id' qs) = true) := by
  have hparts := takenAll_equal id id' (x :: y :: xs) 0
  refine ⟨_,_,product_taken h xs,seqOf_taken _,hparts,fun hself => ?_⟩
  rw [Parser.equal,Parser.equalAll_iff]
  refine forall₂_imp_mem hparts fun p hp q _ hpq => ?_
  rcases hpq with rfl | hpq
  · exact equal_self_of_mem_takenAll hself p hp
  · exact hpq

end Expr

namespace Grammar

/-- However parsers are bracketed into sequences, the same comes of them at every position, whatever
hooks were told before and raise now: the same end, and a value off which the same values of their
leaves can be read.  Where a supplier refuses at first, this is so of what returns.  And a product
that begins with no sequence is the sequence of its operands. -/
theorem brackets_keep_sequences (G : Grammar) (w : World) (refusals : RuleId → Nat)
    (hw : G.Supplied w refusals) (c : Context) :
    (∀ B B' : Bracketing, B.operands = B'.operands → G.Has B.toSequence → G.Has B'.toSequence →
      ∀ i, ∃ x y, G.Accounts w refusals c B.toSequence i x ∧
        G.Accounts w refusals c B'.toSequence i y ∧
        ∀ s, Run.Ends (Outcome.Regrouped (G.leafValues B.toSequence) (G.leafValues B'.toSequence))
            (x s) (y s) ∧
          ∀ v j cut u, x s = (.value (.success v j cut),u) →
            G.Strung w refusals c (Parser.leavesAll B.operands) i s (G.leafValues B.toSequence v) j
              cut) ∧
    ∀ names id id' x y xs, Expr.Opens x y →
      ∃ ps qs,
        (Expr.product ((x :: y :: xs).map .ofOperand)).toParser names id = .ok (.seq id ps) ∧
        (Expr.seqOf ((x :: y :: xs).map .ofOperand)).toParser names id' = .ok (.seq id' qs) ∧
        List.Forall₂ (fun p q => p = q ∨ p.equal q = true) ps qs ∧
        ((∀ p, .inl p ∈ x :: y :: xs → p.equal p = true) →
          (Parser.seq id ps).equal (.seq id' qs) = true) :=
  ⟨fun _ _ h hB hB' i => regrouped hw h hB hB' i,
    fun names id id' _ _ xs h => Expr.product_eq_seqOf names id id' h xs⟩

/-- Three letters that are captured, the second of them by a rule, and a comma after the first; one
after another, or the last two together. -/
def letters : Grammar where
  rules := [.named "b"]
  body _ := .capture (.terminal (.named "second") (.char 'b'))
  parts
    | .named "flat" => some [first,comma,second,third]
    | .named "deep" => some [first,comma,lastTwo]
    | .named "last two" => some [second,third]
    | _ => none
  closed := by simpa using Parser.Over.capture .terminal
where
  first : Parser := .capture (.terminal (.named "first") (.char 'a'))
  comma : Parser := .cut (.terminal (.named "comma") (.char ','))
  second : Parser := .rule (.named "b") "b".toList
  third : Parser := .capture (.terminal (.named "third") (.char 'c'))
  lastTwo : Parser := .seq (.named "last two") [second,third]
  flat : Bracketing :=
    let start : Bracketing := .join (.named "start") (.one first) (.one comma)
    .join (.named "flat") (.join (.named "more") start (.one second)) (.one third)
  deep : Bracketing :=
    let rest : Bracketing := .group (.named "last two") [.one second,.one third]
    .group (.named "deep") [.one first,.one comma,rest]

/-- The letters end alike in both ways of brackets, also when the hook of their rule raises at its
second call; and what follows the comma can be joined to it or listed with it. -/
theorem brackets_keep_letters :
    let second : Hook := { shows := fun _ _ => [], answer := fun before _ =>
      if before.length = 1 then .error (.raisedByHook "second".toList) else .ok none }
    let w : World := ⟨fun r _ => .ok (letters.body r),fun _ => second,fun n => n⟩
    let c (t : Text) : Context := ⟨t,some .standard,some ⟨true,none⟩⟩
    let names : Names := ⟨fun _ => none,fun _ => none,fun _ _ => none⟩
    letters.flat.operands = letters.deep.operands ∧
      (∀ t i, ∃ x y, letters.Accounts w (fun _ => 0) (c t) letters.flat.toSequence i x ∧
        letters.Accounts w (fun _ => 0) (c t) letters.deep.toSequence i y ∧
        ∀ s, Run.Ends (Outcome.Regrouped (letters.leafValues letters.flat.toSequence)
          (letters.leafValues letters.deep.toSequence)) (x s) (y s)) ∧
      ∃ ps qs,
        (Expr.product [.given letters.first,.text [','],.given letters.lastTwo]).toParser names
          (.named "product") = .ok (.seq (.named "product") ps) ∧
        (Expr.seqOf [.given letters.first,.text [','],.given letters.lastTwo]).toParser names
          (.named "parts") = .ok (.seq (.named "parts") qs) ∧
        (Parser.seq (.named "product") ps).equal (.seq (.named "parts") qs) = true := by
  intro second w c names
  have hfirst : letters.Has letters.first := .capture .terminal
  have hcomma : letters.Has letters.comma := .cut .terminal
  have hsecond : letters.Has letters.second := .rule (by simp [letters])
  have hthird : letters.Has letters.third := .capture .terminal
  have hlastTwo : letters.Has letters.lastTwo :=
    .seq rfl (List.forall_mem_cons.mpr ⟨hsecond,List.forall_mem_singleton.mpr hthird⟩)
  have hflat : letters.Has letters.flat.toSequence :=
    .seq rfl (List.forall_mem_cons.mpr ⟨hfirst,List.forall_mem_cons.mpr ⟨hcomma,
      List.forall_mem_cons.mpr ⟨hsecond,List.forall_mem_singleton.mpr hthird⟩⟩⟩)
  have hdeep : letters.Has letters.deep.toSequence :=
    .seq rfl (List.forall_mem_cons.mpr ⟨hfirst,
      List.forall_mem_cons.mpr ⟨hcomma,List.forall_mem_singleton.mpr hlastTwo⟩⟩)
  have hkeeps (t : Text) := brackets_keep_sequences letters w (fun _ => 0)
    (fun _ _ => ⟨by simp,rfl⟩) (c t)
  refine ⟨rfl,fun t i => ?_,?_⟩
  · obtain ⟨x,y,hx,hy,hxy⟩ := (hkeeps t).1 letters.flat letters.deep rfl hflat hdeep i
    exact ⟨x,y,hx,hy,fun s => (hxy s).1⟩
  · have hopens : Expr.Opens (.inl letters.first) (.inr [',']) := by
      rintro a ps ⟨⟩
    obtain ⟨ps,qs,hp,hq,-,hequal⟩ := (hkeeps []).2 names (.named "product") (.named "parts")
      (.inl letters.first) (.inr [',']) [.inl letters.lastTwo] hopens
    refine ⟨ps,qs,hp,hq,hequal fun p hp => ?_⟩
    simp only [List.mem_cons,Sum.inl.injEq,reduceCtorEq,List.not_mem_nil,or_false,false_or] at hp
    rcases hp with rfl | rfl <;> decide

end Grammar
end Peg
