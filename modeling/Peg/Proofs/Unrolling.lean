import Peg.Proofs.Causes
import Peg.Proofs.Repetition

/-! A repetition and the recursive rule that stands for it.
Where no element is empty and nothing is cut, a repetition does what an option over an element and
a rule does, if the body of the rule is an option over a separator, an element and the rule itself.
Main statement: both end at the same position, and the values of the repetition are those of the
runs of the element that are made for the option, one after another. -/
namespace Peg

/-- What a parser adds to a sequence at whose left it stands: its parts if it is a sequence itself,
else itself. -/
def Parser.factors : Parser → List Parser
  | seq _ parts => parts
  | p => [p]

theorem Parser.andThen_eq (id : Ident) (p q : Parser) :
    p.andThen id q = .seq id (p.factors ++ [q]) := by
  cases p <;> rfl

theorem Parser.factors_cases (p : Parser) :
    p.factors = [p] ∨ ∃ id, p = .seq id p.factors := by
  cases p with
  | seq id parts => exact .inr ⟨id,rfl⟩
  | _ => exact .inl rfl

namespace Execution

/-- Parsers were run one after another from a position on, and all succeeded. -/
inductive RanAll : List Parser → Int → List Execution → Int → Prop
  | nil {i : Int} : RanAll [] i [] i
  | cons {x : Execution} {v : Value} {j k : Int} {cut : Bool} {ps : List Parser}
    {xs : List Execution} : x.outcome = .success v j cut → RanAll ps j xs k →
      RanAll (x.parser :: ps) x.start (x :: xs) k

/-- Parsers were run one after another from a position on, up to one that failed. -/
inductive Stopped : List Parser → Int → List Execution → Prop
  | here {x : Execution} {ps : List Parser} : x.outcome.isSuccess = false →
    Stopped (x.parser :: ps) x.start [x]
  | later {x : Execution} {v : Value} {j : Int} {cut : Bool} {ps : List Parser}
    {xs : List Execution} : x.outcome = .success v j cut → Stopped ps j xs →
      Stopped (x.parser :: ps) x.start (x :: xs)

variable {ps qs : List Parser} {i k : Int} {xs : List Execution}

theorem RanAll.split (h : RanAll (ps ++ qs) i xs k) :
    ∃ ys zs j, xs = ys ++ zs ∧ RanAll ps i ys j ∧ RanAll qs j zs k := by
  induction ps generalizing i xs with
  | nil => exact ⟨[],xs,i,rfl,.nil,h⟩
  | cons p ps ih =>
    cases h with
    | @cons x v j k cut _ xs ho h =>
      obtain ⟨ys,zs,l,rfl,hy,hz⟩ := ih h
      exact ⟨x :: ys,zs,l,rfl,.cons ho hy,hz⟩

theorem Stopped.split (h : Stopped (ps ++ qs) i xs) :
    Stopped ps i xs ∨ ∃ ys zs j, xs = ys ++ zs ∧ RanAll ps i ys j ∧ Stopped qs j zs := by
  induction ps generalizing i xs with
  | nil => exact .inr ⟨[],xs,i,rfl,.nil,h⟩
  | cons p ps ih =>
    cases h with
    | here ho => exact .inl (.here ho)
    | @later x v j cut _ xs ho h =>
      rcases ih h with h | ⟨ys,zs,l,rfl,hy,hz⟩
      · exact .inl (.later ho h)
      · exact .inr ⟨x :: ys,zs,l,rfl,.cons ho hy,hz⟩

theorem Throughout.and {P Q : Execution → Prop} {x : Execution} (hP : x.Throughout P)
    (hQ : x.Throughout Q) : x.Throughout fun y => P y ∧ Q y := by
  induction hP with
  | mk hp _ ih =>
    cases hQ with
    | mk hq hin => exact .mk ⟨hp,hq⟩ fun y hy => ih y hy (hin y hy)

/-- What an execution of an option, a rule or a sequence ran in turn. -/
structure Ordered (x : Execution) : Prop where
  opt {body : Parser} : x.parser = .opt body →
    ∃ y, x.inner = [y] ∧ y.parser = body ∧ y.start = x.start
  rule {r : RuleId} {name : Text} : x.parser = .rule r name →
    ∃ y, x.inner = [y] ∧ y.start = x.start
  seq {id : Ident} {parts : List Parser} : x.parser = .seq id parts →
    (∃ k, RanAll parts x.start x.inner k) ∨ Stopped parts x.start x.inner

end Execution

namespace Recorded

open Execution

variable {w : World} {c : Context} {n : Nat}

theorem ensures_ran {step : Parser → Int → Recorded Outcome}
    (h : ∀ p i, Ensures (step p i) (Noted p i)) (parts : List (Parser × Bool))
    (values : List Value) (cut : Bool) (i : Int) :
    Ensures (Parsing.sequence step parts values cut i) fun _ xs =>
      (∃ k, RanAll (parts.map Prod.fst) i xs k) ∨ Stopped (parts.map Prod.fst) i xs := by
  induction parts generalizing values cut i with
  | nil => exact .done (.inl ⟨i,.nil⟩)
  | cons part rest ih =>
    obtain ⟨p,unit⟩ := part
    refine .bind (h p i) ?_
    rintro o _ ⟨x,rfl,rfl,rfl,rfl,-⟩
    cases ho : x.outcome with
    | failure j cause c => exact .done (.inr (.here (by rw [ho]; rfl)))
    | success v j c =>
      refine (ih _ _ _).imp fun _ ys hys => ?_
      rcases hys with ⟨k,hys⟩ | hys
      · exact .inl ⟨k,.cons ho hys⟩
      · exact .inr (.later ho hys)

theorem ensures_opt (body : Parser) (i : Int) :
    Ensures (Parsing.node (Parsing.recordedSurroundings w c n) c.text (Parsing.record w c n)
      (.opt body) i) fun _ xs => ∃ y, xs = [y] ∧ y.parser = body ∧ y.start = i := by
  refine .bind (Parsing.ensures_record w c n body i) ?_
  rintro o _ ⟨y,rfl,hp,hi,-⟩
  cases o with
  | success => exact .done ⟨y,rfl,hp,hi⟩
  | failure => exact .done ⟨y,rfl,hp,hi⟩

theorem ensures_rule (r : RuleId) (name : Text) (i : Int) :
    Ensures (Parsing.node (Parsing.recordedSurroundings w c n) c.text (Parsing.record w c n)
      (.rule r name) i) fun _ xs => ∃ y, xs = [y] ∧ y.start = i := by
  refine .bind (.silent (Q := fun _ xs => xs = []) fun _ => rfl) ?_
  rintro body _ rfl
  have hbody : Ensures (Parsing.record w c n body i) fun _ xs => ∃ y, xs = [y] ∧ y.start = i :=
    (Parsing.ensures_record w c n body i).imp fun _ _ ⟨y,hy,_,hi,_⟩ => ⟨y,hy,hi⟩
  cases c.tracesRules with
  | some hook => exact hbody.traced hook
  | none => exact hbody

end Recorded

namespace Grammar

open Execution Recorded

variable {G : Grammar} {w : World} {c : Context} {t : Text} {refusals : RuleId → Nat}

/-- Everything that is run runs what is below it in order. -/
theorem record_ordered (hw : G.Supplied w refusals) (n : Nat) {p : Parser} (hp : G.Has p)
    (i : Int) : G.Tells refusals (fun x => x.Throughout Ordered) (Parsing.record w c n p i) := by
  induction n generalizing p i with
  | zero => exact ⟨fun _ hs => hs,fun _ hr => nomatch hr⟩
  | succ n ih =>
    have hnode : G.Tells refusals (fun x => x.Throughout Ordered)
        (Parsing.node (Parsing.recordedSurroundings w c n) c.text (Parsing.record w c n) p i) :=
      .node hw hp i fun q hq j => ih (hp.leads hq) j
    refine ⟨hnode.keeps.map _,?_⟩
    intro s u o xs hs hr y hy
    obtain ⟨⟨o',ys⟩,hx,hb⟩ := Run.map_eq_value_iff.mp hr
    cases hb
    obtain rfl := List.mem_singleton.mp hy
    refine .mk ⟨?_,?_,?_⟩ fun z hz => hnode.tells hs hx z hz
    · rintro body rfl
      exact ensures_opt body i _ _ _ _ hx
    · rintro r name rfl
      exact ensures_rule r name i _ _ _ _ hx
    · rintro id parts rfl
      obtain ⟨⟨units,zs⟩,v,hu,hrest⟩ := Run.bind_eq_value_iff.mp hx
      obtain ⟨⟨o'',ys'⟩,v',hparts,hb⟩ := Run.bind_eq_value_iff.mp hrest
      cases hb
      obtain ⟨us,hshape,hb⟩ := Run.map_eq_value_iff.mp hu
      cases hb
      -- The memory is settled, so that it is told of every part whether it is a unit parser.
      obtain ⟨-,ha⟩ := Asks.settled (parts_asks (n := n) hw hp) hs
      change Rules.shape (Rules.isUnit w n) id parts s = _ at hshape
      rw [hshape] at ha
      obtain rfl := forall₂_exact ha
      have hran := ensures_ran (Parsing.ensures_record w c n) (parts.zip (parts.map G.isUnit)) []
        false i _ _ _ _ hparts
      rwa [List.map_fst_zip (by simp)] at hran

section Factors

variable {p : Parser} {ps : List Parser} {i j k : Int} {v : Value} {c : Bool} {xs : List Execution}

/-- The first part of a sequence that comes to an outcome does so itself: if it fails, so does the
sequence, and else the rest of the sequence goes on. -/
theorem sequence_cons {n : Nat} {values : List Value} {cut : Bool} {o : Outcome}
    (h : Parsing.sequence (G.eval t n) ((p :: ps).zip ((p :: ps).map G.isUnit)) values cut i =
      .value o) :
    (∃ j cause d, G.Ends t p i (.value (.failure j cause d)) ∧ o = .failure j cause (cut || d)) ∨
      ∃ u j d, G.Ends t p i (.value (.success u j d)) ∧
        Parsing.sequence (G.eval t n) (ps.zip (ps.map G.isUnit))
          (if G.isUnit p then values else u :: values) (cut || d) j = .value o := by
  rw [List.map_cons,List.zip_cons_cons,Parsing.sequence] at h
  cases hp : G.eval t n p i with
  | raised fault =>
    rw [hp] at h
    cases h
  | exhausted =>
    rw [hp] at h
    cases h
  | value o' =>
    rw [hp,Answer.value_bind] at h
    cases o' with
    | failure j cause d =>
      cases h
      exact .inl ⟨j,cause,d,.of_eval hp,rfl⟩
    | success u j d => exact .inr ⟨u,j,d,.of_eval hp,h⟩

/-- A part that succeeds at the head of a sequence leaves it to the rest of them. -/
theorem Ends.cons {u : Value} {d : Bool} (h : G.Ends t p i (.value (.success u j d)))
    {values : List Value} {cut : Bool} {a : Answer Outcome}
    (hrest : G.EndsSeq t ps (if G.isUnit p then values else u :: values) (cut || d) j a) :
    G.EndsSeq t (p :: ps) values cut i a := by
  cases hu : G.isUnit p with
  | true =>
    rw [hu,if_pos rfl] at hrest
    exact .skip h hu hrest
  | false =>
    rw [hu,if_neg (by simp)] at hrest
    exact .keep h hu hrest

/-- A sequence that succeeds can be continued by more parts. -/
theorem endsSeq_append {n : Nat} {values : List Value} {cut : Bool}
    (h : Parsing.sequence (G.eval t n) (ps.zip (ps.map G.isUnit)) values cut i =
      .value (.success v k c)) :
    ∃ vs d, c = (cut || d) ∧ ∀ rest values' cut' a,
      G.EndsSeq t rest (vs ++ values') (cut' || d) k a →
        G.EndsSeq t (ps ++ rest) values' cut' i a := by
  induction ps generalizing values cut i with
  | nil =>
    cases h
    exact ⟨[],false,by simp,fun rest values' cut' a ha => by simpa using ha⟩
  | cons p ps ih =>
    rcases sequence_cons h with ⟨j,cause,d,-,ho⟩ | ⟨u,j,d,hp,h⟩
    · cases ho
    · obtain ⟨vs,d',rfl,hrest⟩ := ih h
      refine ⟨if G.isUnit p then vs else vs ++ [u],d || d',by simp [Bool.or_assoc],?_⟩
      intro rest values' cut' a ha
      refine hp.cons (hrest _ _ _ _ ?_)
      rw [← Bool.or_assoc] at ha
      cases hu : G.isUnit p with
      | true => simpa [hu] using ha
      | false => simpa [hu] using ha

/-- A sequence that fails also fails before more parts. -/
theorem failsSeq_append {n : Nat} {values : List Value} {cut : Bool} {cause : Parser}
    (h : Parsing.sequence (G.eval t n) (ps.zip (ps.map G.isUnit)) values cut i =
      .value (.failure k cause c)) :
    ∃ d, c = (cut || d) ∧
      ∀ rest values' cut', G.FailsSeq t (ps ++ rest) values' cut' i (cut' || d) := by
  induction ps generalizing values cut i with
  | nil => cases h
  | cons p ps ih =>
    rcases sequence_cons h with ⟨j,cause,d,hp,ho⟩ | ⟨u,j,d,hp,h⟩
    · cases ho
      exact ⟨d,rfl,fun rest values' cut' => .here ⟨_,_,hp⟩⟩
    · obtain ⟨d',rfl,hrest⟩ := ih h
      refine ⟨d || d',by simp [Bool.or_assoc],fun rest values' cut' => ?_⟩
      obtain ⟨l,cause,hl⟩ := hrest rest (if G.isUnit p then values' else u :: values') (cut' || d)
      rw [← Bool.or_assoc]
      exact ⟨l,cause,hp.cons hl⟩

theorem eval_of_ends {a : Answer Outcome} (h : G.Ends t p i a) : ∃ n, G.eval t (n + 1) p i = a := by
  obtain ⟨deep,h⟩ := h
  exact ⟨deep,h (deep + 1) (by omega)⟩

/-- At the left of a sequence a parser that succeeds leaves the rest to the other parts. -/
theorem Ends.factors (h : G.Ends t p i (.value (.success v k c))) :
    ∃ vs, ∀ rest values cut a, G.EndsSeq t rest (vs ++ values) (cut || c) k a →
      G.EndsSeq t (p.factors ++ rest) values cut i a := by
  rcases p.factors_cases with hp | ⟨id,hp⟩
  · rw [hp]
    cases hu : G.isUnit p with
    | true => exact ⟨[],fun rest values cut a ha => .skip h hu ha⟩
    | false => exact ⟨[v],fun rest values cut a ha => .keep h hu ha⟩
  · obtain ⟨n,hn⟩ := eval_of_ends h
    rw [hp] at hn
    obtain ⟨vs,d,rfl,hrest⟩ := endsSeq_append hn
    exact ⟨vs,hrest⟩

theorem Fails.factors (h : G.Fails t p i c) (rest : List Parser) (values : List Value)
    (cut : Bool) : G.FailsSeq t (p.factors ++ rest) values cut i (cut || c) := by
  rcases p.factors_cases with hp | ⟨id,hp⟩
  · rw [hp]
    exact .here h
  · obtain ⟨k,cause,h⟩ := h
    obtain ⟨n,hn⟩ := eval_of_ends h
    rw [hp] at hn
    obtain ⟨d,rfl,hrest⟩ := failsSeq_append hn
    exact hrest _ _ _

/-- The values of the executions that are no unit parsers. -/
noncomputable def kept (G : Grammar) : List Execution → List Value
  | [] => []
  | x :: xs =>
    match x.outcome with
    | .success v _ _ => if G.isUnit x.parser then kept G xs else v :: kept G xs
    | .failure .. => kept G xs

/-- The executions that are a run of a parser at the left of a sequence, as a round: its own
execution or, if it is a sequence itself, those of its parts. -/
inductive RunOf (G : Grammar) (p : Parser) (i : Int) : List Execution → Round → Prop
  | whole {x : Execution} {v : Value} {j : Int} {cut : Bool} : x.parser = p → x.start = i →
    x.outcome = .success v j cut → RunOf G p i [x] ⟨v,cut,j⟩
  | parts {id : Ident} {ps : List Parser} {xs : List Execution} {j : Int} : p = .seq id ps →
    RanAll ps i xs j → RunOf G p i xs ⟨pack (G.kept xs),anyCut xs,j⟩

theorem endsSeq_of_ranAll (h : RanAll ps i xs k) (hx : ∀ x ∈ xs, G.Faithful t x)
    (values : List Value) (cut : Bool) : G.EndsSeq t ps values cut i
      (.value (.success (pack (values.reverse ++ G.kept xs)) k (cut || anyCut xs))) := by
  induction h generalizing values cut with
  | nil => simpa [kept,anyCut] using EndsSeq.nil
  | @cons x v j k d ps xs ho _ ih =>
    have hhead := (hx x (by simp)).ends
    rw [ho] at hhead
    have hrest := ih fun y hy => hx y (by simp [hy])
    have hcut : (cut || anyCut (x :: xs)) = ((cut || d) || anyCut xs) := by
      simp [ho,Outcome.hasCut,Bool.or_assoc]
    rw [hcut]
    cases hu : G.isUnit x.parser with
    | true =>
      simp only [kept,ho,hu,if_true]
      exact .skip hhead hu (hrest _ _)
    | false =>
      have hkeep := hrest (v :: values) (cut || d)
      rw [List.reverse_cons,List.append_assoc] at hkeep
      simp only [kept,ho,hu,Bool.false_eq_true,if_false]
      exact .keep hhead hu hkeep

theorem Faithful.fails {x : Execution} (h : G.Faithful t x) (ho : x.outcome.isSuccess = false) :
    ∃ c, G.Fails t x.parser x.start c := by
  have hends := h.ends
  rcases hx : x.outcome with ⟨v,j,c⟩ | ⟨j,cause,c⟩
  · rw [hx] at ho
    cases ho
  · rw [hx] at hends
    exact ⟨c,j,cause,hends⟩

theorem failsSeq_of_stopped (h : Stopped ps i xs) (hx : ∀ x ∈ xs, G.Faithful t x)
    (values : List Value) (cut : Bool) : ∃ d, G.FailsSeq t ps values cut i d := by
  induction h generalizing values cut with
  | @here x ps ho =>
    obtain ⟨d,hd⟩ := (hx x (by simp)).fails ho
    exact ⟨_,.here hd⟩
  | @later x v j d ps xs ho _ ih =>
    have hhead := (hx x (by simp)).ends
    rw [ho] at hhead
    obtain ⟨d',l,cause,hrest⟩ := ih (fun y hy => hx y (by simp [hy]))
      (if G.isUnit x.parser then values else v :: values) (cut || d)
    exact ⟨d',l,cause,hhead.cons hrest⟩

/-- An execution that succeeded is a run of its parser. -/
theorem runOf_of_single (h : RanAll [p] i xs k) (hx : ∀ x ∈ xs, G.Faithful t x) :
    ∃ v c, G.RunOf p i xs ⟨v,c,k⟩ ∧ G.Ends t p i (.value (.success v k c)) := by
  cases h with
  | @cons x v j _ c _ _ ho h =>
    cases h
    have hends := (hx x (by simp)).ends
    rw [ho] at hends
    exact ⟨v,c,.whole rfl rfl ho,hends⟩

theorem fails_of_single (h : Stopped [p] i xs) (hx : ∀ x ∈ xs, G.Faithful t x) :
    ∃ c, G.Fails t p i c := by
  cases h with
  | @here x _ ho => exact (hx x (by simp)).fails ho
  | later _ h => cases h

/-- Executions of what a parser adds to a sequence are a run of that parser. -/
theorem runOf_of_factors (h : RanAll p.factors i xs k) (hx : ∀ x ∈ xs, G.Faithful t x) :
    ∃ v c, G.RunOf p i xs ⟨v,c,k⟩ ∧ G.Ends t p i (.value (.success v k c)) := by
  rcases p.factors_cases with hp | ⟨id,hp⟩
  · exact runOf_of_single (hp ▸ h) hx
  · refine ⟨_,_,.parts hp h,?_⟩
    rw [hp]
    have hseq := endsSeq_of_ranAll h hx [] false
    rw [Bool.false_or,List.reverse_nil,List.nil_append] at hseq
    exact .seq hseq

theorem fails_of_factors (h : Stopped p.factors i xs) (hx : ∀ x ∈ xs, G.Faithful t x) :
    ∃ c, G.Fails t p i c := by
  rcases p.factors_cases with hp | ⟨id,hp⟩
  · exact fails_of_single (hp ▸ h) hx
  · obtain ⟨d,hseq⟩ := failsSeq_of_stopped h hx [] false
    rw [hp]
    exact ⟨d,.seq hseq⟩

end Factors

/-- The runs of an element that are made for an option over a sequence, one after another: of what
stands before the rule in the sequence `lead` comes first and then the element, and the body of the
rule is such an option again, led by a separator. -/
inductive Gathers (G : Grammar) (p q : Parser) (r : RuleId) :
    List Parser → List Parser → Execution → List Round → Prop
  | stopped {lead element : List Parser} {x y : Execution} : x.inner = [y] →
    Stopped (lead ++ element) y.start y.inner → Gathers G p q r lead element x []
  | next {lead element : List Parser} {x y z x' : Execution} {before during : List Execution}
    {i : Int} {name : Text} {one : Round} {rs : List Round} : x.inner = [y] →
    y.inner = before ++ during ++ [z] → RanAll lead y.start before i →
    RanAll element i during one.stop → G.RunOf p i during one → z.parser = .rule r name →
    z.start = one.stop → z.inner = [x'] → Gathers G p q r q.factors [p] x' rs →
    Gathers G p q r lead element x (one :: rs)

/-- What follows an element that ended there: rounds of a separator and an element that moves on,
until one of the two fails. -/
inductive Successive (G : Grammar) (t : Text) (p q : Parser) : Int → List Round → Prop
  | noSeparator {j : Int} : G.Fails t q j false → Successive G t p q j []
  | noElement {j k : Int} {u : Value} : G.Ends t q j (.value (.success u k false)) →
    G.Fails t p k false → Successive G t p q j []
  | next {j k l : Int} {u v : Value} {rs : List Round} :
    G.Ends t q j (.value (.success u k false)) → G.Ends t p k (.value (.success v l false)) →
    j < l → k ≤ t.length → Successive G t p q l rs → Successive G t p q j (⟨v,false,l⟩ :: rs)

section Unrolling

variable {p q : Parser} {i j : Int} {rs : List Round}

/-- A parser does not go back in the text, and does not move on past its end. -/
theorem Ends.reaches {o : Outcome} (h : G.Ends t p i (.value o)) : t.Reaches False i o.index := by
  have hH : Parsing.Logic (fun _ => True) fun (α : Type) (x : Answer α) Q =>
      x.Meets Q (fun _ => True) True :=
    { done := fun hQ => hQ
      imp := fun {α x P Q} h hPQ => by
        cases x with
        | value a => exact hPQ a h
        | raised | exhausted => exact trivial
      bind := fun {α β x f P Q} hx hf => by
        cases x with
        | value a => exact hf a hx
        | raised | exhausted => exact trivial
      raise := fun _ => trivial }
  have hall : ∀ n p i, (G.eval t n p i).Meets (fun o => t.Reaches False i o.index) (fun _ => True)
      True := by
    intro n
    induction n with
    | zero => exact fun _ _ => trivial
    | succ n ih =>
      intro p i
      have hlands (q : Parser) (j : Int) : (G.eval t n q j).Meets
          (q.Lands (fun _ => True) t False j) (fun _ => True) True :=
        hH.imp (ih q j) fun o ho => ⟨ho,fun _ _ _ => trivial⟩
      have hsame (q x : Parser) : (G.eval t n q i).Meets
          (x.Lands (fun _ => True) t False i) (fun _ => True) True :=
        hH.imp (ih q i) fun o ho => ⟨ho,fun _ _ _ => trivial⟩
      refine hH.imp (hH.node (t := t) Parsing.conservative_unknown p (fun h => h.elim)
        (fun _ _ _ _ _ => trivial) (fun _ _ => trivial) (fun q _ => hlands q i)
        (fun q _ j _ _ => hlands q j) (fun _ _ _ => .inr trivial) (fun _ _ _ => hsame _ _)
        fun _ _ _ _ _ => hsame _ _) fun o ho => ho.reaches
  obtain ⟨n,hn⟩ := eval_of_ends h
  have ho := hall (n + 1) p i
  rwa [hn] at ho

theorem exists_successive
    (hp : ∀ j ≥ i, ∃ o, G.Ends t p j (.value o) ∧ o.hasCut = false ∧
      (o.isSuccess = true → o.index ≠ j))
    (hq : ∀ j ≥ i, ∃ o, G.Ends t q j (.value o) ∧ o.hasCut = false) (hj : i ≤ j) :
    ∃ rs, G.Successive t p q j rs ∧ rs.length ≤ (t.length + 1 - j).toNat := by
  induction hm : (t.length + 1 - j).toNat using Nat.strongRecOn generalizing j with
  | ind m ih =>
    obtain ⟨o,ho,hcut⟩ := hq j hj
    have hreach := ho.reaches
    rcases o with ⟨u,k,_⟩ | ⟨k,cause,_⟩
    · obtain rfl := hcut
      have hjk : j ≤ k := hreach.onward
      obtain ⟨o,ho',hcut,hmove⟩ := hp k (by omega)
      have hreach' := ho'.reaches
      rcases o with ⟨v,l,_⟩ | ⟨l,cause,_⟩
      · obtain rfl := hcut
        have hkl : k ≤ l := hreach'.onward
        have hne : l ≠ k := hmove rfl
        have hk : k ≤ t.length := by
          by_contra hpast
          exact hne (hreach'.past (by omega))
        obtain ⟨rs,hrs,hlen⟩ := ih _ (by omega) (j := l) (by omega) rfl
        refine ⟨_,.next ho ho' (by omega) hk hrs,?_⟩
        rw [List.length_cons]
        omega
      · obtain rfl := hcut
        exact ⟨[],.noElement ho ⟨l,cause,ho'⟩,Nat.zero_le m⟩
    · obtain rfl := hcut
      exact ⟨[],.noSeparator ⟨k,cause,ho⟩,Nat.zero_le m⟩

/-- An attempt at a round goes as the separator and the element do. -/
theorem attempt_of_ends {tally : Tally} {o : Outcome}
    (hgap : G.EndsGap t q tally (.value o)) {b : Except Bool Round}
    (hb : ∃ deep, ∀ n ≥ deep, (match o with
      | .failure _ _ c => pure (.error c)
      | .success _ start c => G.eval t n p start >>= fun
        | .failure _ _ d => pure (.error (c || d))
        | .success v stop d => pure (.ok ⟨v,c || d,stop⟩)) = Answer.value b) :
    ∃ deep, ∀ n ≥ deep, Parsing.attempt (G.eval t n p) (G.eval t n q) tally = .value b := by
  obtain ⟨deep,hgap⟩ := hgap
  obtain ⟨deep',hb⟩ := hb
  refine ⟨max deep deep',fun n hn => ?_⟩
  rw [← hb n (by omega),Parsing.attempt,hgap n (by omega)]
  rfl

theorem attempt_next {tally : Tally} {k l : Int} {u v : Value}
    (hgap : G.EndsGap t q tally (.value (.success u k false)))
    (hp : G.Ends t p k (.value (.success v l false))) :
    ∃ deep, ∀ n ≥ deep,
      Parsing.attempt (G.eval t n p) (G.eval t n q) tally = .value (.ok ⟨v,false,l⟩) := by
  obtain ⟨deep,hp⟩ := hp
  exact attempt_of_ends hgap ⟨deep,fun n hn => by dsimp only; rw [hp n hn]; rfl⟩

theorem attempt_noElement {tally : Tally} {k : Int} {u : Value}
    (hgap : G.EndsGap t q tally (.value (.success u k false))) (hp : G.Fails t p k false) :
    ∃ deep, ∀ n ≥ deep,
      Parsing.attempt (G.eval t n p) (G.eval t n q) tally = .value (.error false) := by
  obtain ⟨l,cause,deep,hp⟩ := hp
  exact attempt_of_ends hgap ⟨deep,fun n hn => by dsimp only; rw [hp n hn]; rfl⟩

/-- The rounds of a repetition end with this tally, if as many of them are granted. -/
def RoundsEnd (G : Grammar) (t : Text) (p q : Parser) (tally : Tally) (rs : List Round) : Prop :=
  ∃ deep, ∀ n ≥ deep, ∀ fuel > rs.length,
    Parsing.rounds (G.eval t n p) (G.eval t n q) 0 none fuel tally = .value (tally.afterAll rs)

theorem RoundsEnd.last {tally : Tally} (h : ∃ deep, ∀ n ≥ deep,
    Parsing.attempt (G.eval t n p) (G.eval t n q) tally = .value (.error false)) :
    G.RoundsEnd t p q tally [] := by
  obtain ⟨deep,h⟩ := h
  refine ⟨deep,fun n hn fuel hf => ?_⟩
  obtain ⟨fuel,rfl⟩ := Nat.exists_eq_add_one_of_ne_zero (Nat.ne_of_gt hf)
  rw [Parsing.rounds_succ,if_neg (by simp),h n hn]
  exact congrArg Answer.value tally.afterMiss_false

theorem RoundsEnd.more {tally : Tally} {r : Round} (h : ∃ deep, ∀ n ≥ deep,
    Parsing.attempt (G.eval t n p) (G.eval t n q) tally = .value (.ok r)) (hr : tally.stop < r.stop)
    (hrest : G.RoundsEnd t p q (tally.after r) rs) : G.RoundsEnd t p q tally (r :: rs) := by
  obtain ⟨deep,h⟩ := h
  obtain ⟨deep',hrest⟩ := hrest
  refine ⟨max deep deep',fun n hn fuel hf => ?_⟩
  rw [List.length_cons] at hf
  obtain ⟨fuel,rfl⟩ : ∃ k, fuel = k + 1 := ⟨fuel - 1,by omega⟩
  rw [Parsing.rounds_succ,if_neg (by simp),h n (by omega)]
  show (if r.stop = tally.stop ∧ 0 ≤ tally.count + 1 then pure (tally.after r)
    else Parsing.rounds _ _ 0 none fuel (tally.after r)) = _
  rw [if_neg (by omega),hrest n (by omega) fuel (by omega)]
  rfl

theorem Successive.rounds (h : G.Successive t p q j rs) {tally : Tally} (hstop : tally.stop = j)
    (hcount : tally.count ≠ 0) : G.RoundsEnd t p q tally rs := by
  induction h generalizing tally with
  | noSeparator hq =>
    obtain ⟨k,cause,hq⟩ := hq
    subst hstop
    exact .last (attempt_of_ends (.later hcount hq) ⟨0,fun _ _ => rfl⟩)
  | noElement hq hp =>
    subst hstop
    exact .last (attempt_noElement (.later hcount hq) hp)
  | next hq hp hjl _ _ ih =>
    subst hstop
    exact .more (attempt_next (.later hcount hq) hp) hjl (ih rfl (by simp))

theorem Successive.uncut (h : G.Successive t p q j rs) : rs.any (·.cut) = false := by
  induction h with
  | noSeparator | noElement => rfl
  | next _ _ _ _ _ ih => exact ih

/-- How a repetition goes on from its start. -/
inductive Begins (G : Grammar) (t : Text) (p q : Parser) (i : Int) : List Round → Prop
  | nothing : G.Fails t p i false → Begins G t p q i []
  | first {l : Int} {v : Value} {rs : List Round} : G.Ends t p i (.value (.success v l false)) →
    i < l → i ≤ t.length → G.Successive t p q l rs → rs.length ≤ (t.length + 1 - l).toNat →
    Begins G t p q i (⟨v,false,l⟩ :: rs)

theorem exists_begins
    (hp : ∀ j ≥ i, ∃ o, G.Ends t p j (.value o) ∧ o.hasCut = false ∧
      (o.isSuccess = true → o.index ≠ j))
    (hq : ∀ j ≥ i, ∃ o, G.Ends t q j (.value o) ∧ o.hasCut = false) :
    ∃ rs, G.Begins t p q i rs := by
  obtain ⟨o,ho,hcut,hmove⟩ := hp i (Int.le_refl i)
  have hreach := ho.reaches
  rcases o with ⟨v,l,_⟩ | ⟨l,cause,_⟩
  · obtain rfl := hcut
    have hil : i ≤ l := hreach.onward
    have hne : l ≠ i := hmove rfl
    have hi : i ≤ t.length := by
      by_contra hpast
      exact hne (hreach.past (by omega))
    obtain ⟨rs,hrs,hlen⟩ := exists_successive hp hq hil
    exact ⟨_,.first ho (by omega) hi hrs hlen⟩
  · obtain rfl := hcut
    exact ⟨[],.nothing ⟨l,cause,ho⟩⟩

/-- A repetition gives the values of its rounds and ends with the last of them. -/
theorem Begins.rep (h : G.Begins t p q i rs) (id : Ident) :
    G.Ends t (.rep id p 0 none q) i
      (.value (.success (.list (rs.map Round.value)) (Round.lastStop i rs) false)) := by
  have hrounds : G.RoundsEnd t p q (.start i) rs ∧ rs.length + 1 ≤ Parsing.roundLimit t 0 i ∧
      rs.any (·.cut) = false := by
    cases h with
    | nothing hp =>
      refine ⟨.last (attempt_noElement (.first rfl) hp),?_,rfl⟩
      simp only [Parsing.roundLimit,List.length_nil]
      omega
    | @first l v rs hp hil hi hrs hlen =>
      refine ⟨.more (attempt_next (.first rfl) hp) hil (hrs.rounds rfl (by simp)),?_,hrs.uncut⟩
      simp only [Parsing.roundLimit,List.length_cons]
      omega
  obtain ⟨⟨deep,hdeep⟩,hlen,hcut⟩ := hrounds
  have houtcome : ((Tally.start i).afterAll rs).outcome 0 (.rep id p 0 none q) i =
      .success (.list (rs.map Round.value)) (Round.lastStop i rs) false := by
    simp [Tally.afterAll_eq,Tally.outcome,Tally.start,hcut]
  refine .node ⟨deep,fun n hn => ?_⟩
  show Parsing.repetition (G.eval t n p) (G.eval t n q) 0 none _ t i = _
  rw [Parsing.repetition_eq,hdeep n hn _ hlen]
  exact congrArg Answer.value houtcome

theorem endsSeq_rule {r : RuleId} (name : Text) {v : Value} {k : Int}
    (h : G.Ends t (G.body r) j (.value (.success v k false))) (values : List Value) :
    ∃ u, G.EndsSeq t [.rule r name] values false j (.value (.success u k false)) :=
  ⟨_,(Ends.rule h).cons .nil⟩

variable {r : RuleId} {name : Text} {a b d : Ident}

/-- The rule goes on as long as there are separators and elements. -/
theorem Successive.ends_body (hbody : G.body r = .opt ((q.andThen a p).andThen b (.rule r name)))
    (h : G.Successive t p q j rs) :
    ∃ v, G.Ends t (G.body r) j (.value (.success v (Round.lastStop j rs) false)) := by
  rw [Parser.andThen_eq,Parser.andThen_eq,Parser.factors,List.append_assoc] at hbody
  induction h with
  | noSeparator hq =>
    rw [hbody]
    exact ⟨_,Fails.opt (.seq (hq.factors _ [] false))⟩
  | noElement hq hp =>
    obtain ⟨vs,hrest⟩ := hq.factors
    obtain ⟨k,cause,hseq⟩ :
        G.FailsSeq t ([p] ++ [.rule r name]) (vs ++ []) false _ (false || false) := .here hp
    rw [hbody]
    exact ⟨_,Fails.opt (.seq ⟨k,cause,hrest _ _ _ _ hseq⟩)⟩
  | @next j k l u v rs hq hp _ _ _ ih =>
    obtain ⟨u',hv⟩ := ih
    obtain ⟨vs,hrest⟩ := hq.factors
    obtain ⟨u',hrule⟩ := endsSeq_rule name hv (if G.isUnit p then vs ++ [] else v :: (vs ++ []))
    rw [hbody]
    exact ⟨u',.opt (.seq (hrest _ _ _ _ (hp.cons hrule)))⟩

theorem Begins.ends_first (hbody : G.body r = .opt ((q.andThen a p).andThen b (.rule r name)))
    (h : G.Begins t p q i rs) : ∃ v, G.Ends t (.opt (p.andThen d (.rule r name))) i
      (.value (.success v (Round.lastStop i rs) false)) := by
  rw [Parser.andThen_eq]
  cases h with
  | nothing hp => exact ⟨_,Fails.opt (.seq (hp.factors _ [] false))⟩
  | first hp _ _ hrs _ =>
    obtain ⟨v,hv⟩ := hrs.ends_body hbody
    obtain ⟨vs,hrest⟩ := hp.factors
    obtain ⟨u,hseq⟩ := endsSeq_rule name hv (vs ++ [])
    exact ⟨u,.opt (.seq (hrest _ _ _ _ hseq))⟩

/-- An execution in whose course everything is run in order, with the outcome that it has at any
time. -/
def Orderly (G : Grammar) (t : Text) (x : Execution) : Prop :=
  x.Throughout fun y => y.Ordered ∧ G.Faithful t y

theorem Orderly.ordered {x : Execution} (h : G.Orderly t x) : x.Ordered := by
  cases h with
  | mk h _ => exact h.1

theorem Orderly.faithful {x : Execution} (h : G.Orderly t x) : G.Faithful t x := by
  cases h with
  | mk h _ => exact h.2

theorem Orderly.inner {x y : Execution} (h : G.Orderly t x) (hy : y ∈ x.inner) : G.Orderly t y := by
  cases h with
  | mk _ h => exact h y hy

/-- The execution of an option over a sequence that ends with a rule: either the parts before the
rule were run up to one that failed, or all of them and then the body of the rule. -/
theorem Orderly.opened {x : Execution} (h : G.Orderly t x) {id : Ident} {parts : List Parser}
    (hx : x.parser = .opt (.seq id (parts ++ [.rule r name]))) :
    ∃ y, x.inner = [y] ∧ y.start = x.start ∧ (∀ z ∈ y.inner, G.Orderly t z) ∧
      (Stopped parts y.start y.inner ∨ ∃ zs z x', y.inner = zs ++ [z] ∧
        RanAll parts y.start zs z.start ∧ z.parser = .rule r name ∧ z.inner = [x'] ∧
        x'.start = z.start ∧ x'.parser = G.body r ∧ G.Orderly t x') := by
  obtain ⟨y,hy,hp,hi⟩ := h.ordered.opt hx
  have hyo : G.Orderly t y := h.inner (by simp [hy])
  refine ⟨y,hy,hi,fun z hz => hyo.inner hz,?_⟩
  -- Whether the rule fails or not, its body was run.
  have hrule {zs ws : List Execution} {z : Execution} (hw : y.inner = zs ++ z :: ws)
      (hz : z.parser = .rule r name) : ∃ x', z.inner = [x'] ∧ x'.start = z.start ∧
        x'.parser = G.body r ∧ G.Orderly t x' := by
    have hzo : G.Orderly t z := hyo.inner (by simp [hw])
    obtain ⟨x',hx',hs⟩ := hzo.ordered.rule hz
    have hlead := hzo.faithful.leads x' (by simp [hx'])
    rw [hz] at hlead
    refine ⟨x',hx',hs,?_,hzo.inner (by simp [hx'])⟩
    generalize x'.parser = body at hlead ⊢
    cases hlead with
    | down hd =>
      cases hd with
      | child hc => cases hc
    | body => rfl
  rcases hyo.ordered.seq hp with ⟨k,hall⟩ | hstop
  · obtain ⟨zs,ws,j,hw,hzs,hws⟩ := hall.split
    generalize hps : [Parser.rule r name] = ps at hws
    cases hws with
    | nil => cases hps
    | @cons z v l _ c ps' ws ho hws =>
      obtain ⟨hz,rfl⟩ := List.cons.inj hps
      cases hws
      obtain ⟨x',hx'⟩ := hrule hw hz.symm
      exact .inr ⟨zs,z,x',hw,hzs,hz.symm,hx'⟩
  · rcases hstop.split with hstop | ⟨zs,ws,j,hw,hzs,hws⟩
    · exact .inl hstop
    · generalize hps : [Parser.rule r name] = ps at hws
      cases hws with
      | @here z ps' ho =>
        obtain ⟨hz,rfl⟩ := List.cons.inj hps
        obtain ⟨x',hx'⟩ := hrule hw hz.symm
        exact .inr ⟨zs,z,x',hw,hzs,hz.symm,hx'⟩
      | later _ hws =>
        obtain ⟨-,rfl⟩ := List.cons.inj hps
        cases hws

/-- If a separator and an element were run in a sequence, both succeed there. -/
theorem ends_of_ranAll (h : RanAll (q.factors ++ [p]) j xs k) (hx : ∀ x ∈ xs, G.Faithful t x) :
    ∃ before during l u c v d, xs = before ++ during ∧ RanAll q.factors j before l ∧
      RanAll [p] l during k ∧ G.RunOf p l during ⟨v,d,k⟩ ∧
      G.Ends t q j (.value (.success u l c)) ∧ G.Ends t p l (.value (.success v k d)) := by
  obtain ⟨before,during,l,rfl,hbefore,hduring⟩ := h.split
  obtain ⟨u,c,-,hq⟩ := runOf_of_factors hbefore fun x h => hx x (by simp [h])
  obtain ⟨v,d,hone,hp⟩ := runOf_of_single hduring fun x h => hx x (by simp [h])
  exact ⟨before,during,l,u,c,v,d,rfl,hbefore,hduring,hone,hq,hp⟩

theorem fails_of_stopped (h : Stopped (q.factors ++ [p]) j xs) (hx : ∀ x ∈ xs, G.Faithful t x) :
    (∃ c, G.Fails t q j c) ∨
      ∃ u l c d, G.Ends t q j (.value (.success u l c)) ∧ G.Fails t p l d := by
  rcases h.split with h | ⟨before,during,l,rfl,hbefore,hduring⟩
  · exact .inl (fails_of_factors h hx)
  · obtain ⟨u,c,-,hq⟩ := runOf_of_factors hbefore fun x h => hx x (by simp [h])
    obtain ⟨d,hp⟩ := fails_of_single hduring fun x h => hx x (by simp [h])
    exact .inr ⟨u,l,c,d,hq,hp⟩

theorem Fails.not_ends {c d : Bool} {v : Value} {k : Int} (h : G.Fails t p i c)
    (h' : G.Ends t p i (.value (.success v k d))) : False := by
  obtain ⟨l,cause,h⟩ := h
  cases h.unique h'

/-- The runs of the element are read off the execution of the body of the rule. -/
theorem Successive.gathers (hbody : G.body r = .opt ((q.andThen a p).andThen b (.rule r name)))
    (hrs : G.Successive t p q j rs) {x : Execution} (h : G.Orderly t x) (hx : x.parser = G.body r)
    (hj : x.start = j) : G.Gathers p q r q.factors [p] x rs := by
  rw [Parser.andThen_eq,Parser.andThen_eq,Parser.factors] at hbody
  induction hrs generalizing x with
  | noSeparator hq =>
    obtain ⟨y,hy,hi,hinner,hstop | ⟨zs,z,x',hw,hzs,-⟩⟩ := h.opened (hx.trans hbody)
    · exact .stopped hy hstop
    · obtain ⟨before,during,l,u,c,v,d,-,-,-,-,hq',-⟩ := ends_of_ranAll hzs fun z hz =>
        (hinner z (by simp [hw,hz])).faithful
      rw [hi,hj] at hq'
      exact (hq.not_ends hq').elim
  | noElement hq hp =>
    obtain ⟨y,hy,hi,hinner,hstop | ⟨zs,z,x',hw,hzs,-⟩⟩ := h.opened (hx.trans hbody)
    · exact .stopped hy hstop
    · obtain ⟨before,during,l,u,c,v,d,-,-,-,-,hq',hp'⟩ := ends_of_ranAll hzs fun z hz =>
        (hinner z (by simp [hw,hz])).faithful
      rw [hi,hj] at hq'
      cases hq.unique hq'
      exact (hp.not_ends hp').elim
  | next hq hp _ _ _ ih =>
    obtain ⟨y,hy,hi,hinner,hstop | ⟨zs,z,x',hw,hzs,hz,hzx,hs,hx',ho⟩⟩ := h.opened (hx.trans hbody)
    · rcases fails_of_stopped hstop fun z hz => (hinner z hz).faithful with
        ⟨c,hq'⟩ | ⟨u,l,c,d,hq',hp'⟩
      · rw [hi,hj] at hq'
        exact (hq'.not_ends hq).elim
      · rw [hi,hj] at hq'
        cases hq.unique hq'
        exact (hp'.not_ends hp).elim
    · obtain ⟨before,during,l,u,c,v,d,rfl,hbefore,hduring,hone,hq',hp'⟩ :=
        ends_of_ranAll hzs fun z hz => (hinner z (by simp [hw,hz])).faithful
      rw [hi,hj] at hq'
      cases hq.unique hq'
      cases hp.unique hp'
      exact .next hy hw hbefore hduring hone hz rfl hzx (ih ho hx' hs)

/-- The runs of the element are read off the execution of the option that begins with it. -/
theorem Begins.gathers (hbody : G.body r = .opt ((q.andThen a p).andThen b (.rule r name)))
    (hrs : G.Begins t p q i rs) {x : Execution} (h : G.Orderly t x)
    (hx : x.parser = .opt (p.andThen d (.rule r name))) (hi : x.start = i) :
    G.Gathers p q r [] p.factors x rs := by
  rw [Parser.andThen_eq] at hx
  obtain ⟨y,hy,hyi,hinner,hstop | ⟨zs,z,x',hw,hzs,hz,hzx,hs,hx',ho⟩⟩ := h.opened hx
  · cases hrs with
    | nothing => exact .stopped hy hstop
    | first hp =>
      obtain ⟨c,hp'⟩ := fails_of_factors hstop fun z hz => (hinner z hz).faithful
      rw [hyi,hi] at hp'
      exact (hp'.not_ends hp).elim
  · obtain ⟨v,c,hone,hp'⟩ := runOf_of_factors hzs fun z hz => (hinner z (by simp [hw,hz])).faithful
    have hw' : y.inner = [] ++ zs ++ [z] := hw
    rw [hyi,hi] at hp'
    cases hrs with
    | nothing hp => exact (hp.not_ends hp').elim
    | first hp _ _ hrs =>
      cases hp.unique hp'
      exact .next hy hw' .nil hzs hone hz rfl hzx (hrs.gathers hbody ho hx' hs)

end Unrolling

/-- A repetition agrees with the recursive rule that stands for it, if the element is never empty,
nothing in the element or the separator is cut or raised, and no supplier and no hook raises.  Both
end at the same position, which
is where the last element ends, and the values of the repetition are those of the runs of the
element that were made for the option, one after another. -/
theorem repetition_as_recursion (hw : ∀ r ∈ G.rules, w.supply r 0 = .ok (G.body r))
    (hc : ∀ hook, (w.hook hook).Calm) {p q : Parser} {r : RuleId} {name : Text} {id a b d : Ident}
    (hbody : G.body r = .opt ((q.andThen a p).andThen b (.rule r name)))
    (hrep : G.Has (.rep id p 0 none q)) (hfirst : G.Has (.opt (p.andThen d (.rule r name))))
    {i : Int} {hook : Option HookId} {config : Option Config} {s : State}
    (hs : G.Settled (fun _ => 0) s.memory)
    (hp : ∀ j ≥ i, ∃ limit o, (Parsing.parse w limit p t j hook config s).1 = .value o ∧
      o.hasCut = false ∧ (o.isSuccess = true → o.index ≠ j))
    (hq : ∀ j ≥ i, ∃ limit o, (Parsing.parse w limit q t j hook config s).1 = .value o ∧
      o.hasCut = false) :
    ∃ rs deep, ∀ limit ≥ deep,
      (Parsing.parse w limit (.rep id p 0 none q) t i hook config s).1 =
        .value (.success (.list (rs.map Round.value)) (Round.lastStop i rs) false) ∧
      ∃ v x s', Parsing.parse w limit (.opt (p.andThen d (.rule r name))) t i hook config s =
          (.value (.success v (Round.lastStop i rs) false),s') ∧
        (Parsing.record w ⟨t,hook.or s.ambientHook,config.or s.ambientConfig⟩ limit
            (.opt (p.andThen d (.rule r name))) i).run (s.setDepth 0) =
          (.value (.success v (Round.lastStop i rs) false,[x]),s') ∧
        G.Gathers p q r [] p.factors x rs := by
  have hw' : G.Supplied w fun _ => 0 := fun r hr => ⟨by simp,hw r hr⟩
  have hpEnds : ∀ j ≥ i, ∃ o, G.Ends t p j (.value o) ∧ o.hasCut = false ∧
      (o.isSuccess = true → o.index ≠ j) := by
    intro j hj
    obtain ⟨limit,o,ho,hcut,hmove⟩ := hp j hj
    exact ⟨o,ends_of_parse hw' (hrep.children (by simp [Parser.children])) hs ho,hcut,hmove⟩
  have hqEnds : ∀ j ≥ i, ∃ o, G.Ends t q j (.value o) ∧ o.hasCut = false := by
    intro j hj
    obtain ⟨limit,o,ho,hcut⟩ := hq j hj
    exact ⟨o,ends_of_parse hw' (hrep.children (by simp [Parser.children])) hs ho,hcut⟩
  obtain ⟨rs,hrs⟩ := exists_begins hpEnds hqEnds
  obtain ⟨v,hv⟩ := hrs.ends_first (d := d) hbody
  obtain ⟨deep,hdeep⟩ := (hrs.rep id).parse hrep (by simp) hw' hc hook config s hs
  obtain ⟨deep',hdeep'⟩ := hv.parse hfirst (by simp) hw' hc hook config s hs
  refine ⟨rs,max deep deep',fun limit hl => ⟨hdeep limit (by omega),v,?_⟩⟩
  obtain ⟨u,hrun⟩ : ∃ u, Parsing.run w ⟨t,hook.or s.ambientHook,config.or s.ambientConfig⟩ limit
      (.opt (p.andThen d (.rule r name))) i (s.setDepth 0) =
        (.value (.success v (Round.lastStop i rs) false),u) :=
    ⟨_,Prod.ext (hdeep' limit (by omega)) rfl⟩
  have hparse := hrun
  rw [← Parsing.forget_record] at hrun
  obtain ⟨⟨o,xs⟩,hx,rfl⟩ := Run.map_eq_value_iff.mp hrun
  obtain ⟨x,rfl,hxp,hxi,-⟩ := Parsing.ensures_record _ _ _ _ _ _ _ _ _ hx
  have hordered := (record_ordered hw' limit hfirst i).tells (s := s.setDepth 0) hs hx x
    (List.mem_singleton_self x)
  have hfaithful := (record_notes hw' limit hfirst i).faithful (s := s.setDepth 0) hs hx x
    (List.mem_singleton_self x)
  have horderly : G.Orderly t x := hordered.and hfaithful.2
  exact ⟨x,u,hparse,hx,hrs.gathers hbody horderly hxp hxi⟩

namespace letterList

def comma : Parser := .terminal (.named "comma") (.char ',')

def letter : Parser := .capture (.terminal (.named "letter") (.char 'a'))

def rest : Parser := .rule (.named "tail") "tail".toList

/-- What follows a letter. -/
def tail : Parser := .opt ((comma.andThen (.named "pair") letter).andThen (.named "tail") rest)

end letterList

open letterList in
/-- Letters with commas between them, as a rule for what follows a letter. -/
def letterList : Grammar where
  rules := [.named "tail"]
  body _ := tail
  parts
    | .named "tail" => some [comma,letter,rest]
    | .named "list" => some [letter,rest]
    | _ => none
  closed _ _ := by
    refine .opt (.seq rfl (List.forall_mem_cons.mpr ⟨.terminal,List.forall_mem_cons.mpr
      ⟨.capture .terminal,List.forall_mem_singleton.mpr ?_⟩⟩))
    exact .rule (List.mem_singleton_self _)

/-- A letter is found where it stands, and moves on by one. -/
theorem run_char (w : World) (c : Context) (n : Nat) (id : Ident) (x : Char) {j : Int} (hj : j ≥ 0)
    (s : State) :
    (∃ cause, Parsing.run w c (n + 1) (.terminal id (.char x)) j s =
      (.value (.failure j cause false),s)) ∨
    Parsing.run w c (n + 1) (.terminal id (.char x)) j s =
      (.value (.success .none (j + 1) false),s) := by
  rw [Parsing.run_terminal]
  rcases hscan : Terminal.scan c.text j (.char x) with fault | _ | k
  · exact (Terminal.raises_of_scan (t := c.text) (by omega) hscan).elim
  · exact .inl ⟨_,rfl⟩
  · obtain rfl : k = j + 1 := (Terminal.of_scanOne hscan).1
    exact .inr rfl

/-- A comma after the last letter is left where it is. -/
theorem letterList_as_recursion :
    let w : World := ⟨fun _ _ => .ok letterList.tail,fun _ => .recording none,fun _ => 0⟩
    let letters : Parser := .rep (.named "letters") letterList.letter 0 none letterList.comma
    let first : Parser := .opt (letterList.letter.andThen (.named "list") letterList.rest)
    let t := "a,a,".toList
    (Parsing.parse w 9 letters t 0 none none {}).1 =
        .value (.success (.list [.str ['a'],.str ['a']]) 3 false) ∧
      ∃ rs deep, ∀ limit ≥ deep,
        (Parsing.parse w limit letters t 0 none none {}).1 =
          .value (.success (.list (rs.map Round.value)) (Round.lastStop 0 rs) false) ∧
        ∃ v x s', Parsing.parse w limit first t 0 none none {} =
            (.value (.success v (Round.lastStop 0 rs) false),s') ∧
          (Parsing.record w ⟨t,none,none⟩ limit first 0).run {} =
            (.value (.success v (Round.lastStop 0 rs) false,[x]),s') ∧
          letterList.Gathers letterList.letter letterList.comma (.named "tail") []
            letterList.letter.factors x rs := by
  intro w letters first t
  have hrest : letterList.Has letterList.rest := .rule (by simp [letterList])
  have hletter : letterList.Has letterList.letter := .capture .terminal
  have hfirst : letterList.Has first :=
    .opt (.seq rfl (List.forall_mem_cons.mpr ⟨hletter,List.forall_mem_singleton.mpr hrest⟩))
  refine ⟨rfl,repetition_as_recursion (w := w) (fun _ _ => rfl) (fun _ => Hook.calm_recording) rfl
    (.rep hletter .terminal) hfirst (settled_new letterList _) ?_ ?_⟩
  · intro j hj
    rcases run_char w ⟨t,none,none⟩ 0 (.named "letter") 'a' hj {} with ⟨cause,hx⟩ | hx
    · exact ⟨2,_,congrArg Prod.fst (Run.bind_of_value hx),rfl,fun h => absurd h Bool.false_ne_true⟩
    · refine ⟨2,_,congrArg Prod.fst (Run.bind_of_value hx),rfl,fun _ => ?_⟩
      show j + 1 ≠ j
      omega
  · intro j hj
    rcases run_char w ⟨t,none,none⟩ 0 (.named "comma") ',' hj {} with ⟨cause,hx⟩ | hx
    · exact ⟨1,_,congrArg Prod.fst hx,rfl⟩
    · exact ⟨1,_,congrArg Prod.fst hx,rfl⟩

open letterList in
/-- Nothing in the element or the separator is cut or raised, and the repetition succeeds.  The option
raises all the same: it asks whether the element is a unit parser, which ends at a supplier that
raises, or its rule is traced by a hook that raises. -/
theorem recursion_may_raise_alone :
    let missing : Parser := .rule (.named "missing") "missing".toList
    let never : Parser := .rep (.named "never") missing 0 (some 0) (.terminal (.named "gap") .pass)
    let letterOrRule : Parser := .choice [.terminal (.named "letter") (.char 'a'),
      .filter (.named "filter") never (fun _ => .ok false) "never".toList]
    let letters (p : Parser) : Parser := .rep (.named "letters") p 0 none comma
    let first (p : Parser) : Parser := .opt (p.andThen (.named "list") rest)
    let tail (p : Parser) : Parser :=
      .opt ((comma.andThen (.named "pair") p).andThen (.named "tail") rest)
    let supply (p : Parser) (r : RuleId) (_ : Nat) : Except Fault Parser :=
      if r = .named "tail" then .ok (tail p) else .error .notReady
    let parse (p : Parser) (raises : Option Occasion) (q : Parser) (j : Int) : Answer Outcome :=
      (Parsing.parse ⟨supply p,fun _ => .recording raises,fun _ => 0⟩ 9 q "a,a".toList j
        (some .standard) (some ⟨true,none⟩) {}).1
    let smooth (p : Parser) (raises : Option Occasion) : Prop :=
      (∀ j ≥ 0, ∃ o, parse p raises p j = .value o ∧ o.hasCut = false ∧
        (o.isSuccess = true → o.index ≠ j)) ∧
      ∀ j ≥ 0, ∃ o, parse p raises comma j = .value o ∧ o.hasCut = false
    (smooth letterOrRule none ∧
      parse letterOrRule none (letters letterOrRule) 0 =
        .value (.success (.list [.none,.none]) 3 false) ∧
      parse letterOrRule none (first letterOrRule) 0 = .raised .notReady) ∧
    smooth letter (some .enter) ∧
      parse letter (some .enter) (letters letter) 0 =
        .value (.success (.list [.str ['a'],.str ['a']]) 3 false) ∧
      parse letter (some .enter) (first letter) 0 = .raised (.raisedByHook "enter".toList) := by
  intro missing never letterOrRule letters first tail supply parse smooth
  have hcomma (p : Parser) (raises : Option Occasion) (j : Int) (hj : j ≥ 0) :
      ∃ o, parse p raises comma j = .value o ∧ o.hasCut = false := by
    rcases run_char ⟨supply p,fun _ => .recording raises,fun _ => 0⟩
      ⟨"a,a".toList,some .standard,some ⟨true,none⟩⟩ 8 (.named "comma") ',' hj {} with ⟨cause,hx⟩ | hx
    · exact ⟨_,congrArg Prod.fst hx,rfl⟩
    · exact ⟨_,congrArg Prod.fst hx,rfl⟩
  refine ⟨⟨⟨fun j hj => ?_,hcomma _ _⟩,rfl,rfl⟩,⟨fun j hj => ?_,hcomma _ _⟩,rfl,rfl⟩
  · rcases run_char ⟨supply letterOrRule,fun _ => .recording none,fun _ => 0⟩
      ⟨"a,a".toList,some .standard,some ⟨true,none⟩⟩ 7 (.named "letter") 'a' hj {} with ⟨cause,hx⟩ | hx
    · exact ⟨_,congrArg Prod.fst (Run.bind_of_value hx),rfl,fun h => absurd h Bool.false_ne_true⟩
    · refine ⟨_,congrArg Prod.fst (Run.bind_of_value hx),rfl,fun _ => ?_⟩
      show j + 1 ≠ j
      omega
  · rcases run_char ⟨supply letter,fun _ => .recording (some .enter),fun _ => 0⟩
      ⟨"a,a".toList,some .standard,some ⟨true,none⟩⟩ 7 (.named "letter") 'a' hj {} with ⟨cause,hx⟩ | hx
    · exact ⟨_,congrArg Prod.fst (Run.bind_of_value hx),rfl,fun h => absurd h Bool.false_ne_true⟩
    · refine ⟨_,congrArg Prod.fst (Run.bind_of_value hx),rfl,fun _ => ?_⟩
      show j + 1 ≠ j
      omega

end Grammar
end Peg
