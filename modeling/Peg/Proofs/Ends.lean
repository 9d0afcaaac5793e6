import Peg.Proofs.Meaning
import Peg.Proofs.Places

/-! How a parser over a grammar ends, given how the parsers below it end: one rule for each
combinator and for each way in which its loop goes on.  Main statement: a parse ends as its parser
does. -/
namespace Peg

namespace Grammar

variable {G : Grammar} {t : Text} {α : Type}

/-- A parser ends so at a position of a text, at every depth that is large enough. -/
def Ends (G : Grammar) (t : Text) (p : Parser) (i : Int) (a : Answer Outcome) : Prop :=
  ∃ deep, ∀ n ≥ deep, G.eval t n p i = a

/-- A parser fails at a position of a text, with a cut or without one. -/
def Fails (G : Grammar) (t : Text) (p : Parser) (i : Int) (cut : Bool) : Prop :=
  ∃ j cause, G.Ends t p i (.value (.failure j cause cut))

theorem Ends.node {p : Parser} {i : Int} {a : Answer Outcome}
    (h : ∃ deep, ∀ n ≥ deep, Parsing.node G.plain t (G.eval t n) p i = a) : G.Ends t p i a := by
  obtain ⟨deep,h⟩ := h
  refine ⟨deep + 1,fun n hn => ?_⟩
  obtain ⟨m,rfl⟩ := Nat.exists_eq_add_of_le' hn
  exact h (m + deep) (by omega)

theorem Ends.of_eval {n : Nat} {p : Parser} {i : Int} {o : Outcome}
    (h : G.eval t n p i = .value o) : G.Ends t p i (.value o) :=
  ⟨n,fun m hm => (eval_of_le hm (by simp [h])).trans h⟩

/-- A parser ends in one way only. -/
theorem Ends.unique {p : Parser} {i : Int} {a b : Answer Outcome} (ha : G.Ends t p i a)
    (hb : G.Ends t p i b) : a = b := by
  obtain ⟨deep,ha⟩ := ha
  obtain ⟨deep',hb⟩ := hb
  rw [← ha (max deep deep') (by omega),hb (max deep deep') (by omega)]

/-- What surrounds a node that needs no memory and no hooks, at all depths. -/
noncomputable def plainLeveled (G : Grammar) : Parsing.Surroundings Leveled where
  shape _ parts := pure (parts.map G.isUnit)
  rule r _ _ go := go (G.body r)
  log _ _ _ x := x

theorem eval_succ (t : Text) (p : Parser) (i : Int) (n : Nat) :
    Parsing.node G.plainLeveled t (fun q j m => G.eval t m q j) p i n = G.eval t (n + 1) p i := by
  have hR := Leveled.level_congruence n
  exact hR.node t p i (fun _ _ _ => rfl) (fun _ _ _ _ _ _ _ _ _ => rfl) (fun _ _ _ => rfl)
    (fun _ _ _ => rfl) fun _ _ _ _ _ => rfl

section Terminals

variable {id : Ident} {s : Terminal} {i : Int} {u v : Text}

theorem ends_terminal {j : Int} (h : s.scan t i = .ok (some j)) :
    G.Ends t (.terminal id s) i (.value (.success .none j false)) :=
  .node ⟨0,fun _ _ => by simp only [Parsing.node,h]; rfl⟩

theorem fails_terminal (h : s.scan t i = .ok none) : G.Fails t (.terminal id s) i false :=
  ⟨i,.terminal id s,.node ⟨0,fun _ _ => by simp only [Parsing.node,h]; rfl⟩⟩

theorem ends_terminal_raised {fault : Fault} (h : s.scan t i = .error fault) :
    G.Ends t (.terminal id s) i (.raised fault) :=
  .node ⟨0,fun _ _ => by simp only [Parsing.node,h]; rfl⟩

theorem ends_char {c : Char} (h : At t i (c :: u)) :
    G.Ends t (.terminal id (.char c)) i (.value (.success .none (i + 1) false)) :=
  ends_terminal (by rw [Terminal.scan_char_cons h,if_pos rfl])

theorem fails_char {c : Char} (h : At t i u) (hc : ∀ d ∈ u.head?, d ≠ c) :
    G.Fails t (.terminal id (.char c)) i false := by
  cases u with
  | nil => exact fails_terminal (Terminal.scan_char_nil h c)
  | cons d u => exact fails_terminal (by rw [Terminal.scan_char_cons h,if_neg (hc d rfl)])

theorem ends_oneOf {c : Char} {chars : Text} (h : At t i (c :: u)) (hc : c ∈ chars) :
    G.Ends t (.terminal id (.oneOf chars)) i (.value (.success .none (i + 1) false)) :=
  ends_terminal (by rw [Terminal.scan_oneOf_cons h,if_pos hc])

theorem fails_oneOf {chars : Text} (h : At t i u) (hc : ∀ d ∈ u.head?, d ∉ chars) :
    G.Fails t (.terminal id (.oneOf chars)) i false := by
  cases u with
  | nil => exact fails_terminal (Terminal.scan_oneOf_nil h chars)
  | cons d u => exact fails_terminal (by rw [Terminal.scan_oneOf_cons h,if_neg (hc d rfl)])

theorem ends_runOf {chars : Text} {least : Nat} (h : At t i (v ++ u)) (hv : ∀ c ∈ v, c ∈ chars)
    (hu : ∀ c ∈ u.head?, c ∉ chars) (hl : least ≤ v.length) :
    G.Ends t (.terminal id (.runOf chars least)) i
      (.value (.success .none (i + v.length) false)) :=
  ends_terminal (by rw [Terminal.scan_runOf h hv hu,if_pos hl])

theorem fails_runOf {chars : Text} {least : Nat} (h : At t i (v ++ u)) (hv : ∀ c ∈ v, c ∈ chars)
    (hu : ∀ c ∈ u.head?, c ∉ chars) (hl : v.length < least) :
    G.Fails t (.terminal id (.runOf chars least)) i false :=
  fails_terminal (by rw [Terminal.scan_runOf h hv hu,if_neg (by omega)])

theorem ends_literal {word : Text} (h : At t i (word ++ u)) :
    G.Ends t (.terminal id (.literal word)) i (.value (.success .none (i + word.length) false)) :=
  ends_terminal (by rw [Terminal.scan_literal h,if_pos (by simp)])

theorem fails_literal {word : Text} (h : At t i u) (hw : ¬ word <+: u) :
    G.Fails t (.terminal id (.literal word)) i false :=
  fails_terminal (by rw [Terminal.scan_literal h,if_neg (by simpa using hw)])

theorem ends_regex_run {s : CharSet} {least : Nat} {source : Text} (h : At t i (v ++ u))
    (hv : ∀ c ∈ v, s.holds c = true) (hu : ∀ c ∈ u.head?, s.holds c = false)
    (hl : least ≤ v.length) :
    G.Ends t
      (.terminal id (.regex (Pattern.sequence [.loop (.one s) least none true]).matcher source)) i
      (.value (.success .none (i + v.length) false)) :=
  ends_terminal (by rw [Terminal.scan_regex_run h hv hu,if_pos hl])

theorem fails_regex_run {s : CharSet} {least : Nat} {source : Text} (h : At t i (v ++ u))
    (hv : ∀ c ∈ v, s.holds c = true) (hu : ∀ c ∈ u.head?, s.holds c = false)
    (hl : v.length < least) :
    G.Fails t
      (.terminal id (.regex (Pattern.sequence [.loop (.one s) least none true]).matcher source)) i
      false :=
  fails_terminal (by rw [Terminal.scan_regex_run h hv hu,if_neg (by omega)])

theorem ends_finish (h : At t i []) :
    G.Ends t (.terminal id .finish) i (.value (.success .none i false)) :=
  ends_terminal (by rw [Terminal.scan_finish h,if_pos rfl])

theorem fails_finish {c : Char} (h : At t i (c :: u)) : G.Fails t (.terminal id .finish) i false :=
  fails_terminal (by rw [Terminal.scan_finish h,if_neg (by simp)])

end Terminals

section Wrappers

variable {id : Ident} {p : Parser} {i j : Int} {v : Value} {c : Bool} {a : Answer Outcome}

theorem Ends.body (h : G.Ends t p i a) (f : Outcome → Answer Outcome) :
    ∃ deep, ∀ n ≥ deep, (G.eval t n p i >>= f) = a >>= f := by
  obtain ⟨deep,h⟩ := h
  exact ⟨deep,fun n hn => by rw [h n hn]⟩

theorem Ends.opt (h : G.Ends t p i (.value (.success v j c))) :
    G.Ends t (.opt p) i (.value (.success v j c)) :=
  .node (h.body _)

theorem Fails.opt (h : G.Fails t p i c) : G.Ends t (.opt p) i (.value (.success .none i false)) := by
  obtain ⟨k,cause,h⟩ := h
  exact .node (h.body _)

theorem Ends.cut (h : G.Ends t p i (.value (.success v j c))) :
    G.Ends t (.cut p) i (.value (.success v j true)) :=
  .node (h.body _)

theorem Ends.cut_raised {fault : Fault} (h : G.Ends t p i (.raised fault)) :
    G.Ends t (.cut p) i (.raised fault) :=
  .node (h.body _)

theorem Fails.cut (h : G.Fails t p i c) : G.Fails t (.cut p) i c := by
  obtain ⟨k,cause,h⟩ := h
  exact ⟨k,cause,.node (h.body _)⟩

theorem Ends.capture (h : G.Ends t p i (.value (.success v j c))) :
    G.Ends t (.capture p) i (.value (.success (.str (t.slice i j)) j c)) :=
  .node (h.body _)

theorem Fails.capture (h : G.Fails t p i c) : G.Fails t (.capture p) i c := by
  obtain ⟨k,cause,h⟩ := h
  exact ⟨k,cause,.node (h.body _)⟩

variable {f : Value → Except Fault Value} {name : Text}

/-- What a mapping makes of the outcome of its body. -/
def mapped (f : Value → Except Fault Value) : Outcome → Answer Outcome
  | .success v j cut =>
    match f v with
    | .ok u => .value (.success u j cut)
    | .error fault => .raised fault
  | .failure j cause cut => .value (.failure j cause cut)

theorem Ends.map {u : Value} (h : G.Ends t p i (.value (.success v j c))) (hf : f v = .ok u) :
    G.Ends t (.map id p f name) i (.value (.success u j c)) := by
  have hm := h.body (mapped f)
  simp only [Answer.value_bind,mapped,hf] at hm
  exact .node hm

theorem Ends.map_error {fault : Fault} (h : G.Ends t p i (.value (.success v j c)))
    (hf : f v = .error fault) : G.Ends t (.map id p f name) i (.raised fault) := by
  have hm := h.body (mapped f)
  simp only [Answer.value_bind,mapped,hf] at hm
  exact .node hm

theorem Ends.map_raised {fault : Fault} (h : G.Ends t p i (.raised fault)) :
    G.Ends t (.map id p f name) i (.raised fault) :=
  .node (h.body _)

theorem Fails.map (h : G.Fails t p i c) : G.Fails t (.map id p f name) i c := by
  obtain ⟨k,cause,h⟩ := h
  exact ⟨k,cause,.node (h.body _)⟩

theorem Ends.rule {r : RuleId} (h : G.Ends t (G.body r) i a) : G.Ends t (.rule r name) i a :=
  .node h

theorem Fails.rule {r : RuleId} (h : G.Fails t (G.body r) i c) : G.Fails t (.rule r name) i c := by
  obtain ⟨k,cause,h⟩ := h
  exact ⟨k,cause,.rule h⟩

end Wrappers

/-- The rest of a sequence ends so, with the values gathered before it and a cut seen or not. -/
def EndsSeq (G : Grammar) (t : Text) (parts : List Parser) (values : List Value) (cut : Bool)
    (i : Int) (a : Answer Outcome) : Prop :=
  ∃ deep, ∀ n ≥ deep,
    Parsing.sequence (G.eval t n) (parts.zip (parts.map G.isUnit)) values cut i = a

/-- The rest of a sequence fails, with a cut or without one. -/
def FailsSeq (G : Grammar) (t : Text) (parts : List Parser) (values : List Value) (cut : Bool)
    (i : Int) (c : Bool) : Prop :=
  ∃ j cause, G.EndsSeq t parts values cut i (.value (.failure j cause c))

section Sequences

variable {p : Parser} {parts : List Parser} {values : List Value} {cut c : Bool} {i j : Int}
  {v : Value} {a : Answer Outcome}

theorem Ends.seq {id : Ident} (h : G.EndsSeq t parts [] false i a) : G.Ends t (.seq id parts) i a :=
  .node h

theorem EndsSeq.nil :
    G.EndsSeq t [] values cut i (.value (.success (pack values.reverse) i cut)) :=
  ⟨0,fun _ _ => rfl⟩

/-- How a part ends decides how the sequence goes on. -/
theorem EndsSeq.part {b : Answer Outcome} (hp : G.Ends t p i b)
    (h : ∃ deep, ∀ n ≥ deep, (b >>= fun
      | .failure j cause c => pure (.failure j cause (cut || c))
      | .success v j c => Parsing.sequence (G.eval t n) (parts.zip (parts.map G.isUnit))
          (if G.isUnit p then values else v :: values) (cut || c) j) = a) :
    G.EndsSeq t (p :: parts) values cut i a := by
  obtain ⟨deep,hp⟩ := hp
  obtain ⟨deep',h⟩ := h
  refine ⟨max deep deep',fun n hn => ?_⟩
  rw [← h n (by omega),← hp n (by omega)]
  rfl

/-- The value of a unit parser is left out. -/
theorem EndsSeq.skip (hp : G.Ends t p i (.value (.success v j c))) (hu : G.isUnit p = true)
    (h : G.EndsSeq t parts values (cut || c) j a) : G.EndsSeq t (p :: parts) values cut i a :=
  .part hp (by simp only [Answer.value_bind,hu]; exact h)

theorem EndsSeq.keep (hp : G.Ends t p i (.value (.success v j c))) (hu : G.isUnit p = false)
    (h : G.EndsSeq t parts (v :: values) (cut || c) j a) :
    G.EndsSeq t (p :: parts) values cut i a :=
  .part hp (by simp only [Answer.value_bind,hu]; exact h)

theorem FailsSeq.here (hp : G.Fails t p i c) :
    G.FailsSeq t (p :: parts) values cut i (cut || c) := by
  obtain ⟨j,cause,hp⟩ := hp
  exact ⟨j,cause,.part hp ⟨0,fun _ _ => rfl⟩⟩

theorem FailsSeq.skip {d : Bool} (hp : G.Ends t p i (.value (.success v j c)))
    (hu : G.isUnit p = true) (h : G.FailsSeq t parts values (cut || c) j d) :
    G.FailsSeq t (p :: parts) values cut i d := by
  obtain ⟨k,cause,h⟩ := h
  exact ⟨k,cause,.skip hp hu h⟩

theorem FailsSeq.keep {d : Bool} (hp : G.Ends t p i (.value (.success v j c)))
    (hu : G.isUnit p = false) (h : G.FailsSeq t parts (v :: values) (cut || c) j d) :
    G.FailsSeq t (p :: parts) values cut i d := by
  obtain ⟨k,cause,h⟩ := h
  exact ⟨k,cause,.keep hp hu h⟩

theorem Fails.seq {id : Ident} (h : G.FailsSeq t parts [] false i c) :
    G.Fails t (.seq id parts) i c := by
  obtain ⟨j,cause,h⟩ := h
  exact ⟨j,cause,.seq h⟩

theorem EndsSeq.raise {fault : Fault} (hp : G.Ends t p i (.raised fault)) :
    G.EndsSeq t (p :: parts) values cut i (.raised fault) :=
  .part hp ⟨0,fun _ _ => rfl⟩

end Sequences

/-- The branches of a choice that are left end so. -/
def EndsChoice (G : Grammar) (t : Text) (whole : Parser) (i : Int) (branches : List Parser)
    (a : Answer Outcome) : Prop :=
  ∃ deep, ∀ n ≥ deep, Parsing.choice (G.eval t n) whole i branches = a

section Choices

variable {p whole : Parser} {branches : List Parser} {c : Bool} {i j : Int} {v : Value}
  {a : Answer Outcome}

theorem Ends.choice (h : G.EndsChoice t (.choice branches) i branches a) :
    G.Ends t (.choice branches) i a :=
  .node h

theorem Fails.choice (h : G.EndsChoice t (.choice branches) i branches
    (.value (.failure i (.choice branches) c))) : G.Fails t (.choice branches) i c :=
  ⟨i,_,.choice h⟩

theorem EndsChoice.nil : G.EndsChoice t whole i [] (.value (.failure i whole false)) :=
  ⟨0,fun _ _ => rfl⟩

/-- How a branch ends decides whether the choice goes on. -/
theorem EndsChoice.branch {b : Answer Outcome} (hp : G.Ends t p i b)
    (h : ∃ deep, ∀ n ≥ deep, (b >>= fun
      | .success v j _ => pure (.success v j false)
      | .failure _ _ c =>
        if c then pure (.failure i whole true) else Parsing.choice (G.eval t n) whole i branches) = a) :
    G.EndsChoice t whole i (p :: branches) a := by
  obtain ⟨deep,hp⟩ := hp
  obtain ⟨deep',h⟩ := h
  refine ⟨max deep deep',fun n hn => ?_⟩
  rw [← h n (by omega),← hp n (by omega)]
  rfl

theorem EndsChoice.here (hp : G.Ends t p i (.value (.success v j c))) :
    G.EndsChoice t whole i (p :: branches) (.value (.success v j false)) :=
  .branch hp ⟨0,fun _ _ => rfl⟩

theorem EndsChoice.there (hp : G.Fails t p i false) (h : G.EndsChoice t whole i branches a) :
    G.EndsChoice t whole i (p :: branches) a := by
  obtain ⟨j,cause,hp⟩ := hp
  exact .branch hp h

/-- No branch is tried after one that fails with a cut. -/
theorem EndsChoice.stop (hp : G.Fails t p i true) :
    G.EndsChoice t whole i (p :: branches) (.value (.failure i whole true)) := by
  obtain ⟨j,cause,hp⟩ := hp
  exact .branch hp ⟨0,fun _ _ => rfl⟩

theorem EndsChoice.raise {fault : Fault} (hp : G.Ends t p i (.raised fault)) :
    G.EndsChoice t whole i (p :: branches) (.raised fault) :=
  .branch hp ⟨0,fun _ _ => rfl⟩

theorem EndsChoice.none (h : ∀ p ∈ branches, G.Fails t p i false) :
    G.EndsChoice t whole i branches (.value (.failure i whole false)) := by
  induction branches with
  | nil => exact .nil
  | cons p branches ih => exact .there (h p (by simp)) (ih fun q hq => h q (by simp [hq]))

/-- A choice ends as the one branch that succeeds, wherever it stands. -/
theorem EndsChoice.only {β : Type} {f : β → Parser} {b : β} {bs : List β} (hb : b ∈ bs)
    (hf : ∀ x ∈ bs, x ≠ b → G.Fails t (f x) i false)
    (h : G.Ends t (f b) i (.value (.success v j c))) :
    G.EndsChoice t whole i (bs.map f) (.value (.success v j false)) := by
  induction bs with
  | nil => cases hb
  | cons x bs ih =>
    by_cases hx : x = b
    · subst hx
      exact .here h
    · refine .there (hf x (by simp) hx) (ih ?_ fun y hy => hf y (by simp [hy]))
      exact (List.mem_cons.mp hb).resolve_left (Ne.symm hx)

end Choices

/-- What stands before the next element of a repetition ends so. -/
def EndsGap (G : Grammar) (t : Text) (separator : Parser) (tally : Tally) (a : Answer Outcome) :
    Prop :=
  ∃ deep, ∀ n ≥ deep, Parsing.gap (G.eval t n separator) tally = a

/-- The rounds of a repetition that are left end so, if each that succeeds moves on; there are no
more of them than characters. -/
def EndsRounds (G : Grammar) (t : Text) (element separator : Parser) (least : Nat)
    (most : Option Nat) (tally : Tally) (a : Answer Tally) : Prop :=
  ∀ fuel, (t.length - tally.stop).toNat < fuel → ∃ deep, ∀ n ≥ deep,
    Parsing.rounds (G.eval t n element) (G.eval t n separator) least most fuel tally = a

section Repetitions

variable {element separator : Parser} {least : Nat} {most : Option Nat} {tally : Tally}
  {c d : Bool} {i j : Int} {v : Value}

theorem EndsGap.first (h : tally.count = 0) :
    G.EndsGap t separator tally (.value (.success .none tally.stop false)) :=
  ⟨0,fun _ _ => by rw [Parsing.gap,if_pos h]; rfl⟩

theorem EndsGap.later {a : Answer Outcome} (h : tally.count ≠ 0)
    (hs : G.Ends t separator tally.stop a) : G.EndsGap t separator tally a := by
  obtain ⟨deep,hs⟩ := hs
  exact ⟨deep,fun n hn => by rw [Parsing.gap,if_neg h,hs n hn]⟩

/-- A separator that always passes makes no difference. -/
theorem EndsGap.pass {id : Ident} :
    G.EndsGap t (.terminal id .pass) tally (.value (.success .none tally.stop false)) := by
  by_cases h : tally.count = 0
  · exact .first h
  · exact .later h (ends_terminal Terminal.scan_pass)

theorem EndsRounds.full (h : most.any (· ≤ tally.count) = true) :
    G.EndsRounds t element separator least most tally (.value tally) := by
  intro fuel _
  refine ⟨0,fun n _ => ?_⟩
  unfold Parsing.rounds
  rw [if_pos h]
  rfl

/-- How one round goes decides how the repetition goes on. -/
theorem EndsRounds.round {a : Answer Outcome} {r : Answer Tally}
    (hm : most.any (· ≤ tally.count) = false) (hg : G.EndsGap t separator tally a)
    (h : ∀ fuel, (t.length - tally.stop).toNat ≤ fuel → ∃ deep, ∀ n ≥ deep, (a >>= fun
      | .failure _ _ c => pure { tally with cut := tally.cut || c }
      | .success _ start c => G.eval t n element start >>= fun
        | .failure _ _ d => pure { tally with cut := tally.cut || c || d }
        | .success v j d =>
          let next : Tally := ⟨v :: tally.values,tally.count + 1,tally.cut || c || d,j⟩
          if j = tally.stop ∧ least ≤ next.count then pure next
          else Parsing.rounds (G.eval t n element) (G.eval t n separator) least most fuel next) = r) :
    G.EndsRounds t element separator least most tally r := by
  intro fuel hf
  obtain ⟨m,rfl⟩ := Nat.exists_eq_add_one_of_ne_zero (Nat.ne_of_gt (Nat.zero_lt_of_lt hf))
  obtain ⟨deep,hg⟩ := hg
  obtain ⟨deep',h⟩ := h m (by omega)
  refine ⟨max deep deep',fun n hn => ?_⟩
  rw [← h n (by omega),← hg n (by omega)]
  conv => lhs; unfold Parsing.rounds
  refine (if_neg (by simp [hm])).trans ?_
  rfl

theorem EndsRounds.noGap {cause : Parser} (hm : most.any (· ≤ tally.count) = false)
    (hg : G.EndsGap t separator tally (.value (.failure j cause c))) :
    G.EndsRounds t element separator least most tally
      (.value { tally with cut := tally.cut || c }) :=
  .round hm hg fun _ _ => ⟨0,fun _ _ => rfl⟩

theorem EndsRounds.noElement (hm : most.any (· ≤ tally.count) = false)
    (hg : G.EndsGap t separator tally (.value (.success v j c))) (he : G.Fails t element j d) :
    G.EndsRounds t element separator least most tally
      (.value { tally with cut := tally.cut || c || d }) := by
  obtain ⟨k,cause,deep,he⟩ := he
  exact .round hm hg fun _ _ => ⟨deep,fun n hn => by simp only [Answer.value_bind,he n hn]; rfl⟩

theorem EndsRounds.raise {fault : Fault} (hm : most.any (· ≤ tally.count) = false)
    (hg : G.EndsGap t separator tally (.value (.success v j c)))
    (he : G.Ends t element j (.raised fault)) :
    G.EndsRounds t element separator least most tally (.raised fault) := by
  obtain ⟨deep,he⟩ := he
  exact .round hm hg fun _ _ => ⟨deep,fun n hn => by simp only [Answer.value_bind,he n hn]; rfl⟩

theorem EndsRounds.more {u : Value} {k : Int} {r : Answer Tally}
    (hm : most.any (· ≤ tally.count) = false)
    (hg : G.EndsGap t separator tally (.value (.success v j c)))
    (he : G.Ends t element j (.value (.success u k d))) (hk : tally.stop < k) (hl : k ≤ t.length)
    (h : G.EndsRounds t element separator least most
      ⟨u :: tally.values,tally.count + 1,tally.cut || c || d,k⟩ r) :
    G.EndsRounds t element separator least most tally r := by
  obtain ⟨deep,he⟩ := he
  refine .round hm hg fun fuel hf => ?_
  obtain ⟨deep',h⟩ := h fuel (by dsimp only; omega)
  refine ⟨max deep deep',fun n hn => ?_⟩
  simp only [Answer.value_bind,he n (by omega)]
  rw [if_neg (by omega)]
  exact h n (by omega)

variable {id : Ident} {least : Quantity} {most : Option Quantity}

theorem Ends.rep_of_rounds {r : Answer Tally} (id : Ident)
    (h : G.EndsRounds t element separator least.toNat (most.map (·.toNat)) ⟨[],0,false,i⟩ r) :
    G.Ends t (.rep id element least most separator) i (r >>= fun tally =>
      if tally.count < least.toNat then
        pure (.failure i (.rep id element least most separator) tally.cut)
      else pure (.success (.list tally.values.reverse) tally.stop tally.cut)) := by
  obtain ⟨deep,h⟩ := h (Parsing.roundLimit t least.toNat i)
    (by simp only [Parsing.roundLimit]; omega)
  refine .node ⟨deep,fun n hn => ?_⟩
  rw [← h n hn]
  rfl

theorem Ends.rep (h : G.EndsRounds t element separator least.toNat (most.map (·.toNat))
    ⟨[],0,false,i⟩ (.value tally)) (hl : least.toNat ≤ tally.count) :
    G.Ends t (.rep id element least most separator) i
      (.value (.success (.list tally.values.reverse) tally.stop tally.cut)) := by
  have hr := rep_of_rounds id h
  rwa [Answer.value_bind,if_neg (by omega)] at hr

theorem Fails.rep (h : G.EndsRounds t element separator least.toNat (most.map (·.toNat))
    ⟨[],0,false,i⟩ (.value tally)) (hl : tally.count < least.toNat) :
    G.Fails t (.rep id element least most separator) i tally.cut := by
  have hr := Ends.rep_of_rounds id h
  rw [Answer.value_bind,if_pos hl] at hr
  exact ⟨i,_,hr⟩

theorem Ends.rep_raised {fault : Fault} (h : G.EndsRounds t element separator least.toNat
    (most.map (·.toNat)) ⟨[],0,false,i⟩ (.raised fault)) :
    G.Ends t (.rep id element least most separator) i (.raised fault) :=
  rep_of_rounds id h

end Repetitions

variable {w : World} {s : State}

/-- What a parser comes to in a parse it comes to at any time, whatever hooks are told. -/
theorem ends_of_parse {refusals : RuleId → Nat} (hw : G.Supplied w refusals) {p : Parser}
    (hp : G.Has p) {limit : Nat} {i : Int} {hook : Option HookId} {config : Option Config}
    (hs : G.Settled refusals s.memory) {o : Outcome}
    (h : (Parsing.parse w limit p t i hook config s).1 = .value o) : G.Ends t p i (.value o) :=
  .of_eval ((run_attains (c := ⟨t,hook.or s.ambientHook,config.or s.ambientConfig⟩) hw limit hp i
    (s.setDepth 0) hs).2 o h)

/-- A parse ends as its parser does, from every memory that uses of the grammar leave behind and
whatever hooks are told, as long as they do not raise. -/
theorem Ends.parse {p : Parser} {i : Int} {a : Answer Outcome} (h : G.Ends t p i a)
    (hp : G.Has p) (ha : a ≠ .exhausted) (hw : G.Supplied w fun _ => 0)
    (hc : ∀ hook, (w.hook hook).Calm) (hook : Option HookId) (config : Option Config) (s : State)
    (hs : G.Settled (fun _ => 0) s.memory) :
    ∃ deep, ∀ limit ≥ deep, (Parsing.parse w limit p t i hook config s).1 = a := by
  obtain ⟨n,h⟩ := h
  let c : Context := ⟨t,hook.or s.ambientHook,config.or s.ambientConfig⟩
  have hmeans : (G.means w c n p i (s.setDepth 0)).1 = a :=
    (means_eq_eval hc n p i _).trans (h n (Nat.le_refl n))
  obtain ⟨deep,hr⟩ := reaches_means hw n hp i (hmeans ▸ ha)
  refine ⟨deep,fun limit hl => ?_⟩
  obtain ⟨u,hu,-⟩ := hr limit hl (s.setDepth 0) ⟨hs,.refl w _⟩
  exact (congrArg Prod.fst hu).trans hmeans

end Grammar
end Peg
