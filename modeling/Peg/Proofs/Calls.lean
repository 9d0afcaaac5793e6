import Peg.Parsing
import Peg.Proofs.Grammar
import Peg.Proofs.Spans

/-! What running a node runs in turn, and from where.
A node runs what lies below it from its own position only before anything has to be consumed, and
otherwise from further on.  Main statement: whatever can be said of computations and is kept by
composing holds of a node, if it holds of what the node runs so; and the outcome lies where it
must, so that the rounds of a repetition are never given up. -/
namespace Peg

open Relation

namespace Parser

/-- What a node runs from where it begins itself, given which parsers may succeed without consuming:
a part of a sequence after such parts only, a separator after such an element, and what a flat map
goes on with after such a body. -/
inductive Enters (empty : Parser → Prop) : Parser → Parser → Prop
  | part {id : Ident} {before after : List Parser} {q : Parser} :
    (∀ x ∈ before, empty x) → Enters empty (.seq id (before ++ q :: after)) q
  | branch {branches : List Parser} {q : Parser} : q ∈ branches → Enters empty (.choice branches) q
  | element {id : Ident} {q separator : Parser} {least : Quantity} {most : Option Quantity} :
    Enters empty (.rep id q least most separator) q
  | separator {id : Ident} {element q : Parser} {least : Quantity} {most : Option Quantity} :
    empty element → Enters empty (.rep id element least most q) q
  | body {p q : Parser} : p.children = [q] → Enters empty p q
  | next {id : Ident} {body : Parser} {next : Value → Except Fault Parser} {name : Text} {v : Value}
    {q : Parser} : empty body → next v = .ok q → Enters empty (.flatMap id body next name) q

theorem Enters.down {empty : Parser → Prop} {p q : Parser} (h : p.Enters empty q) : p.Down q := by
  cases h with
  | part => exact .child (by simp [children])
  | branch hq => exact .child hq
  | element => exact .child (by simp [children])
  | separator => exact .child (by simp [children])
  | body hq => exact .child (by simp [hq])
  | next _ hq => exact .next hq

/-- An analysis of which parsers may succeed without consuming.  It is told of each node from what
it says of those below, and rather once too often than once too rarely. -/
structure Conservative (empty : Parser → Prop) : Prop where
  terminal {id : Ident} {s : Terminal} {t : Text} {i : Int} :
    s.scan t i = .ok (some i) → empty (.terminal id s)
  seq {id : Ident} {ps : List Parser} : (∀ p ∈ ps, empty p) → empty (.seq id ps)
  choice {ps : List Parser} {p : Parser} : p ∈ ps → empty p → empty (.choice ps)
  rep {id : Ident} {p q : Parser} {least : Quantity} {most : Option Quantity} :
    least.toNat = 0 ∨ empty p ∧ (least.toNat ≤ 1 ∨ empty q) → empty (.rep id p least most q)
  opt {p : Parser} : empty (.opt p)
  not {p : Parser} : empty (.not p)
  cut {p : Parser} : empty p → empty (.cut p)
  map {id : Ident} {p : Parser} {f : Value → Except Fault Value} {name : Text} :
    empty p → empty (.map id p f name)
  flatMap {id : Ident} {p q : Parser} {next : Value → Except Fault Parser} {name : Text}
    {v : Value} : empty p → next v = .ok q → empty q → empty (.flatMap id p next name)
  filter {id : Ident} {p : Parser} {test : Value → Except Fault Bool} {name : Text} :
    empty p → empty (.filter id p test name)
  capture {p : Parser} : empty p → empty (.capture p)
  log {id : Ident} {p : Parser} {name : Text} {hook : Option HookId} :
    empty p → empty (.log id p name hook)

/-- The outcome of a parser lies where it can, and a success without consuming is one that is
expected. -/
structure Lands (empty : Parser → Prop) (t : Text) (inside : Prop) (p : Parser) (i : Int)
    (o : Outcome) : Prop where
  reaches : t.Reaches inside i o.index
  empty : ∀ v c, o = .success v i c → empty p

theorem Lands.failure {empty : Parser → Prop} {t : Text} {inside : Prop} {p cause : Parser} {i j : Int}
    {cut : Bool} (h : t.Reaches inside i j) : Lands empty t inside p i (.failure j cause cut) where
  reaches := h
  empty _ _ hs := by cases hs

/-- What nodes raise that can be reached by such steps is of a kind, and so is what terminals raise
from a position on. -/
structure Admits (L : Parser → Parser → Prop) (E : Fault → Prop) (t : Text) (p : Parser) (i : Int) :
    Prop where
  raise {q : Parser} {fault : Fault} : ReflTransGen L p q → q.Raises fault → E fault
  scan {id : Ident} {s : Terminal} {j : Int} {fault : Fault} :
    ReflTransGen L p (.terminal id s) → i ≤ j → s.scan t j = .error fault → E fault

section Admits

variable {L : Parser → Parser → Prop} {E F : Fault → Prop} {t : Text} {p q : Parser} {i j : Int}

theorem Admits.imp (h : p.Admits L E t i) (hF : ∀ fault, E fault → F fault) : p.Admits L F t i where
  raise hq hf := hF _ (h.raise hq hf)
  scan hs hj hf := hF _ (h.scan hs hj hf)

theorem Admits.lead (h : p.Admits L E t i) (hq : L p q) (hj : i ≤ j) : q.Admits L E t j where
  raise hr := h.raise (.head hq hr)
  scan hs hk := h.scan (.head hq hs) (Int.le_trans hj hk)

/-- From the first character on terminals raise only what they were made to raise. -/
theorem admits_raises (L : Parser → Parser → Prop) (t : Text) (p : Parser) (i : Int) :
    p.Admits L (fun fault => -t.length ≤ i → ∃ q, ReflTransGen L p q ∧ q.Raises fault) t i where
  raise hq hf _ := ⟨_,hq,hf⟩
  scan hs hj hf hi := ⟨_,hs,Terminal.raises_of_scan (Int.le_trans hi hj) hf⟩

end Admits

end Parser

namespace Parsing

variable {m : Type → Type} [Monad m] [Abrupt m]

/-- A way to tell of computations what the values are like that they give, and that what they raise
is of a kind.  Composing keeps it. -/
structure Logic (E : Fault → Prop) (H : (α : Type) → m α → (α → Prop) → Prop) : Prop where
  done {α : Type} {Q : α → Prop} {a : α} : Q a → H α (pure a) Q
  imp {α : Type} {x : m α} {P Q : α → Prop} : H α x P → (∀ a, P a → Q a) → H α x Q
  bind {α β : Type} {x : m α} {f : α → m β} {P : α → Prop} {Q : β → Prop} :
    H α x P → (∀ a, P a → H β (f a) Q) → H β (x >>= f) Q
  raise {α : Type} {Q : α → Prop} {fault : Fault} : E fault → H α (Abrupt.raise fault) Q

namespace Logic

variable {E : Fault → Prop} {H : (α : Type) → m α → (α → Prop) → Prop} {empty : Parser → Prop}
  {t : Text} {inside : Prop} {step : Parser → Int → m Outcome} {i : Int}

theorem sequence (hH : Logic E H) (parts : List (Parser × Bool)) (values : List Value) (cut : Bool)
    (hin : ∀ before x after, parts = before ++ x :: after → (∀ y ∈ before, empty y.1) →
      H _ (step x.1 i) (x.1.Lands empty t inside i))
    (hon : ∀ x ∈ parts, ∀ j, i < j → t.Reaches inside i j →
      H _ (step x.1 j) (x.1.Lands empty t inside j)) :
    H _ (Parsing.sequence step parts values cut i) fun o =>
      t.Reaches inside i o.index ∧ ∀ v c, o = .success v i c → ∀ x ∈ parts, empty x.1 := by
  induction parts generalizing values cut i with
  | nil => exact hH.done ⟨.refl t inside i,by simp⟩
  | cons x rest ih =>
    obtain ⟨p,unit⟩ := x
    refine hH.bind (hin [] (p,unit) rest rfl (by simp)) fun o ho => ?_
    cases o with
    | failure j cause c => exact hH.done ⟨ho.reaches,nofun⟩
    | success v j c =>
      have hj : t.Reaches inside i j := ho.reaches
      -- The other parts begin at the same position only if this one consumed nothing.
      refine hH.imp (ih _ _ (fun before y after hr hb => ?_) fun y hy k hk hjk => ?_) ?_
      · by_cases hij : j = i
        · subst hij
          refine hin ((p,unit) :: before) y after (by rw [hr,List.cons_append]) ?_
          exact List.forall_mem_cons.mpr ⟨ho.empty v c rfl,hb⟩
        · refine hon y (by simp [hr]) j ?_ hj
          have := hj.onward
          omega
      · exact hon y (by simp [hy]) k (Int.lt_of_le_of_lt hj.onward hk) (hj.trans hjk)
      · rintro o ⟨hr,he⟩
        refine ⟨hj.trans hr,fun u d hu => ?_⟩
        subst hu
        obtain rfl : i = j := Int.le_antisymm hj.onward hr.onward
        exact List.forall_mem_cons.mpr ⟨ho.empty v c rfl,he u d rfl⟩

theorem choice (hH : Logic E H) (whole : Parser) (branches : List Parser)
    (h : ∀ q ∈ branches, H _ (step q i) (q.Lands empty t inside i)) :
    H _ (Parsing.choice step whole i branches) fun o =>
      t.Reaches inside i o.index ∧ ∀ v c, o = .success v i c → ∃ q ∈ branches, empty q := by
  induction branches with
  | nil => exact hH.done ⟨.refl t inside i,nofun⟩
  | cons p ps ih =>
    refine hH.bind (h p (by simp)) fun o ho => ?_
    cases o with
    | success v j c =>
      refine hH.done ⟨ho.reaches,fun u d hu => ⟨p,by simp,?_⟩⟩
      cases hu
      exact ho.empty v c rfl
    | failure j cause c =>
      cases c with
      | true => exact hH.done ⟨.refl t inside i,nofun⟩
      | false =>
        refine hH.imp (ih fun q hq => h q (by simp [hq])) ?_
        rintro o ⟨hr,he⟩
        refine ⟨hr,fun u d hu => ?_⟩
        obtain ⟨q,hq,hqe⟩ := he u d hu
        exact ⟨q,by simp [hq],hqe⟩

/-- How far a repetition has come that began at `i`: it is where it can be, and if it still is where
it began then all that it ran consumed nothing. -/
structure Progress (empty : Parser → Prop) (t : Text) (inside : Prop) (element separator : Parser)
    (i : Int) (tally : Tally) : Prop where
  reaches : t.Reaches inside i tally.stop
  element : tally.stop = i → 0 < tally.count → empty element
  separator : tally.stop = i → 1 < tally.count → empty separator

/-- The rounds that a repetition may still take: those that are missing, and one for each place
where there is something left to consume. -/
def roundsLeft (t : Text) (least : Nat) (tally : Tally) : Nat :=
  (least - 1 - tally.count) + (t.length + 1 - tally.stop).toNat

variable {element separator : Int → m Outcome} {p q : Parser}

theorem gap (hH : Logic E H) {tally : Tally} (ht : Progress empty t inside p q i tally)
    (hs : ∀ j, t.Reaches inside i j → (j = i → empty p) →
      H _ (separator j) (q.Lands empty t inside j)) :
    H _ (Parsing.gap separator tally) fun o => t.Reaches inside tally.stop o.index ∧
      ∀ v c, o = .success v tally.stop c → tally.count = 0 ∨ empty q := by
  by_cases hcount : tally.count = 0
  · rw [Parsing.gap,if_pos hcount]
    exact hH.done ⟨.refl t inside tally.stop,fun _ _ _ => .inl hcount⟩
  · rw [Parsing.gap,if_neg hcount]
    refine hH.imp (hs tally.stop ht.reaches fun hi => ht.element hi (by omega)) fun o ho => ?_
    exact ⟨ho.reaches,fun v c hv => .inr (ho.empty v c hv)⟩

/-- A round that is not the last one either is one of the least, or has moved on. -/
theorem rounds (hH : Logic E H)
    (he : ∀ j, t.Reaches inside i j → H _ (element j) (p.Lands empty t inside j))
    (hs : ∀ j, t.Reaches inside i j → (j = i → empty p) →
      H _ (separator j) (q.Lands empty t inside j))
    (least : Nat) (most : Option Nat) (fuel : Nat) (tally : Tally)
    (ht : Progress empty t inside p q i tally) (hfuel : roundsLeft t least tally < fuel) :
    H _ (Parsing.rounds element separator least most fuel tally)
      (fun tally' => Progress empty t inside p q i tally') := by
  induction fuel generalizing tally with
  | zero => omega
  | succ fuel ih =>
    by_cases hm : most.any (· ≤ tally.count) = true
    · rw [Parsing.rounds,if_pos hm]
      exact hH.done ht
    · rw [Parsing.rounds,if_neg hm]
      refine hH.bind (hH.gap ht hs) ?_
      rintro o ⟨hgap,hq⟩
      cases o with
      | failure j cause c => exact hH.done ⟨ht.reaches,ht.element,ht.separator⟩
      | success v start c =>
        have hstart : t.Reaches inside tally.stop start := hgap
        refine hH.bind (he start (ht.reaches.trans hstart)) fun o ho => ?_
        cases o with
        | failure j cause d => exact hH.done ⟨ht.reaches,ht.element,ht.separator⟩
        | success u j d =>
          have hj : t.Reaches inside start j := ho.reaches
          have hround : t.Reaches inside tally.stop j := hstart.trans hj
          have hnext : Progress empty t inside p q i
              ⟨u :: tally.values,tally.count + 1,tally.cut || c || d,j⟩ := by
            -- Where nothing was consumed at all, nothing was consumed in this round.
            have hsame (hji : j = i) : tally.stop = i ∧ start = i := by
              have := ht.reaches.onward
              have := hstart.onward
              have := hj.onward
              omega
            refine ⟨ht.reaches.trans hround,fun hji _ => ?_,fun hji hcount => ?_⟩
            · obtain ⟨-,hsi⟩ := hsame hji
              obtain rfl : j = start := Eq.trans hji hsi.symm
              exact ho.empty u d rfl
            · obtain ⟨hstop,hsi⟩ := hsame hji
              obtain rfl : start = tally.stop := hsi.trans hstop.symm
              rcases hq v c rfl with h0 | hq
              · have : 1 < tally.count + 1 := hcount
                omega
              · exact hq
          dsimp only
          by_cases hstay : j = tally.stop ∧ least ≤ tally.count + 1
          · rw [if_pos hstay]
            exact hH.done hnext
          · rw [if_neg hstay]
            refine ih _ hnext ?_
            have hpast : tally.stop < j → tally.stop ≤ t.length := by
              intro h
              by_cases hp : t.length < tally.stop
              · have := hround.past hp
                omega
              · omega
            have := hround.onward
            simp only [roundsLeft] at hfuel ⊢
            omega

theorem repetition (hH : Logic E H)
    (he : ∀ j, t.Reaches inside i j → H _ (element j) (p.Lands empty t inside j))
    (hs : ∀ j, t.Reaches inside i j → (j = i → empty p) →
      H _ (separator j) (q.Lands empty t inside j))
    (least : Nat) (most : Option Nat) (whole : Parser) :
    H _ (Parsing.repetition element separator least most whole t i) fun o =>
      t.Reaches inside i o.index ∧
        ∀ v c, o = .success v i c → least = 0 ∨ empty p ∧ (least ≤ 1 ∨ empty q) := by
  have hstart : Progress empty t inside p q i ⟨[],0,false,i⟩ :=
    ⟨.refl t inside i,nofun,nofun⟩
  have hfuel : roundsLeft t least ⟨[],0,false,i⟩ < roundLimit t least i := by
    simp only [roundsLeft,roundLimit]
    omega
  refine hH.bind (hH.rounds he hs least most _ _ hstart hfuel) fun tally ht => ?_
  by_cases hcount : tally.count < least
  · rw [if_pos hcount]
    exact hH.done ⟨.refl t inside i,nofun⟩
  · rw [if_neg hcount]
    refine hH.done ⟨ht.reaches,fun v c hv => ?_⟩
    have hstop : tally.stop = i := congrArg Outcome.index hv
    have hp := ht.element hstop
    have hq := ht.separator hstop
    by_cases h0 : least = 0
    · exact .inl h0
    · refine .inr ⟨hp (by omega),?_⟩
      by_cases h1 : least ≤ 1
      · exact .inl h1
      · exact .inr (hq (by omega))

/-- Running a node, given what it runs from its own position and from further on.  Telling which
parts of a sequence are unit parsers tells it of all of them, or else it does not matter whether
the sequence consumes anything. -/
theorem node (hH : Logic E H) (hE : Parser.Conservative empty) {e : Surroundings m} (p : Parser)
    (hinside : inside → ∀ id s, p = .terminal id s → s.offersTuple = false)
    (hscan : ∀ id s fault, p = .terminal id s → s.scan t i = .error fault → E fault)
    (hraise : ∀ fault, p.Raises fault → E fault)
    (hin : ∀ q, p.Enters empty q → H _ (step q i) (q.Lands empty t inside i))
    (hon : ∀ q, p.Down q → ∀ j, i < j → t.Reaches inside i j →
      H _ (step q j) (q.Lands empty t inside j))
    (hs : ∀ id parts, p = .seq id parts →
      H _ (e.shape id parts) fun units => (parts.zip units).map Prod.fst = parts ∨ empty p)
    (hr : ∀ r name, p = .rule r name →
      H _ (e.rule r name i fun q => step q i) (p.Lands empty t inside i))
    (hl : ∀ id body name hook, p = .log id body name hook →
      H _ (e.log hook name i (step body i)) (p.Lands empty t inside i)) :
    H _ (Parsing.node e t step p i) (p.Lands empty t inside i) := by
  cases p with
  | terminal id s =>
    simp only [Parsing.node]
    rcases hscans : s.scan t i with fault | _ | j
    · exact hH.raise (hscan id s fault rfl hscans)
    · exact hH.done (.failure (.refl t inside i))
    · refine hH.done ⟨Terminal.reaches_of_scan (fun h => hinside h id s rfl) hscans,fun v c hv => ?_⟩
      cases hv
      exact hE.terminal hscans
  | seq id parts =>
    refine hH.bind (hs id parts rfl) fun units hunits => ?_
    have hloop : H _ (Parsing.sequence step (parts.zip units) [] false i) fun o =>
        t.Reaches inside i o.index ∧ ∀ v c, o = .success v i c → ∀ x ∈ parts.zip units, empty x.1 := by
      refine hH.sequence _ [] false (fun before x after hx hb => ?_) fun x hx j hj hij => ?_
      · -- The units may be fewer than the parts, and then the parts that are left over are not run.
        have hparts : parts = (before ++ x :: after).map Prod.fst ++
            parts.drop (min parts.length units.length) := by
          rw [← hx,List.zip_eq_zip_take_min,List.map_fst_zip (by simp),List.take_append_drop]
        rw [List.map_append,List.map_cons,List.append_assoc,List.cons_append] at hparts
        refine hin x.1 ?_
        rw [hparts]
        exact .part (List.forall_mem_map.mpr hb)
      · exact hon x.1 (.child (List.of_mem_zip hx).1) j hj hij
    refine hH.imp hloop ?_
    rintro o ⟨hr,he⟩
    refine ⟨hr,fun v c hv => ?_⟩
    rcases hunits with hunits | hempty
    · refine hE.seq fun q hq => ?_
      rw [← hunits] at hq
      obtain ⟨x,hx,rfl⟩ := List.mem_map.mp hq
      exact he v c hv x hx
    · exact hempty
  | choice branches =>
    refine hH.imp (hH.choice _ branches fun q hq => hin q (.branch hq)) ?_
    rintro o ⟨hr,he⟩
    refine ⟨hr,fun v c hv => ?_⟩
    obtain ⟨q,hq,hqe⟩ := he v c hv
    exact hE.choice hq hqe
  | rep id element least most separator =>
    have he (j : Int) (hj : t.Reaches inside i j) :
        H _ (step element j) (element.Lands empty t inside j) := by
      by_cases hij : j = i
      · exact hij ▸ hin element .element
      · have := hj.onward
        exact hon element (.child (by simp [Parser.children])) j (by omega) hj
    have hsep (j : Int) (hj : t.Reaches inside i j) (hji : j = i → empty element) :
        H _ (step separator j) (separator.Lands empty t inside j) := by
      by_cases hij : j = i
      · exact hij ▸ hin separator (.separator (hji hij))
      · have := hj.onward
        exact hon separator (.child (by simp [Parser.children])) j (by omega) hj
    refine hH.imp (hH.repetition he hsep _ _ _) ?_
    rintro o ⟨hr,hempty⟩
    exact ⟨hr,fun v c hv => hE.rep (hempty v c hv)⟩
  | opt body =>
    refine hH.bind (hin body (.body rfl)) fun o ho => ?_
    cases o with
    | success v j c => exact hH.done ⟨ho.reaches,fun _ _ _ => hE.opt⟩
    | failure j cause c => exact hH.done ⟨.refl t inside i,fun _ _ _ => hE.opt⟩
  | not body =>
    refine hH.bind (hin body (.body rfl)) fun o ho => ?_
    cases o with
    | success v j c => exact hH.done (.failure (.refl t inside i))
    | failure j cause c => exact hH.done ⟨.refl t inside i,fun _ _ _ => hE.not⟩
  | cut body =>
    refine hH.bind (hin body (.body rfl)) fun o ho => ?_
    cases o with
    | success v j c =>
      refine hH.done ⟨ho.reaches,fun u d hu => ?_⟩
      cases hu
      exact hE.cut (ho.empty v c rfl)
    | failure j cause c => exact hH.done (.failure ho.reaches)
  | map id body f name =>
    refine hH.bind (hin body (.body rfl)) fun o ho => ?_
    cases o with
    | failure j cause c => exact hH.done (.failure ho.reaches)
    | success v j c =>
      dsimp only
      cases hf : f v with
      | error fault => exact hH.raise (hraise fault ⟨v,hf⟩)
      | ok u =>
        refine hH.done ⟨ho.reaches,fun u d hu => ?_⟩
        cases hu
        exact hE.map (ho.empty v c rfl)
  | flatMap id body next name =>
    refine hH.bind (hin body (.body rfl)) fun o ho => ?_
    cases o with
    | failure j cause c => exact hH.done (.failure ho.reaches)
    | success v j c =>
      dsimp only
      cases hq : next v with
      | error fault => exact hH.raise (hraise fault ⟨v,hq⟩)
      | ok q =>
        have hj : t.Reaches inside i j := ho.reaches
        have hrun : H _ (step q j) (q.Lands empty t inside j) := by
          by_cases hij : j = i
          · subst hij
            exact hin q (.next (ho.empty v c rfl) hq)
          · have := hj.onward
            exact hon q (.next hq) j (by omega) hj
        refine hH.bind hrun fun o' ho' => hH.done ⟨?_,fun u d hu => ?_⟩
        · rw [Outcome.index_afterCut]
          exact hj.trans ho'.reaches
        · cases o' with
          | failure k cause d => cases hu
          | success v' k d =>
            have hk : k = i := congrArg Outcome.index hu
            obtain rfl : j = k := Int.le_antisymm ho'.reaches.onward (hk ▸ hj.onward)
            subst hk
            exact hE.flatMap (ho.empty v c rfl) hq (ho'.empty v' d rfl)
  | filter id body test name =>
    refine hH.bind (hin body (.body rfl)) fun o ho => ?_
    cases o with
    | failure j cause c => exact hH.done (.failure ho.reaches)
    | success v j c =>
      dsimp only
      rcases htest : test v with fault | _ | _
      · exact hH.raise (hraise fault ⟨v,htest⟩)
      · exact hH.done (.failure (.refl t inside i))
      · refine hH.done ⟨ho.reaches,fun u d hu => ?_⟩
        cases hu
        exact hE.filter (ho.empty v c rfl)
  | capture body =>
    refine hH.bind (hin body (.body rfl)) fun o ho => ?_
    cases o with
    | failure j cause c => exact hH.done (.failure ho.reaches)
    | success v j c =>
      refine hH.done ⟨ho.reaches,fun u d hu => ?_⟩
      cases hu
      exact hE.capture (ho.empty v c rfl)
  | rule r name => exact hr r name rfl
  | log id body name hook => exact hl id body name hook rfl

end Logic
end Parsing
end Peg
