import Peg.Proofs.Termination

/-! What parsers accept, values left aside.
A parser without cuts, rules and logs whose functions give a value for every value is a partial
function from positions to positions, put together from those of the parsers in it.  Main
statement: a parse with it ends at every depth that is large enough, as that function says. -/
namespace Peg

/-- From a position of a text it goes on to a position, or it refuses. -/
def Recogniser := Text → Nat → Option Nat

namespace Recogniser

def accept : Recogniser := fun _ i => some i

def refuse : Recogniser := fun _ _ => none

def andThen (r s : Recogniser) : Recogniser := fun t i => (r t i).bind (s t)

def orElse (r s : Recogniser) : Recogniser := fun t i => (r t i).or (s t i)

def opt (r : Recogniser) : Recogniser := r.orElse accept

def not (r : Recogniser) : Recogniser := fun t i => if (r t i).isSome then none else some i

/-- Rounds of a repetition: how many there are in the end, and where the last one ends. -/
def rounds (element separator : Nat → Option Nat) (least : Nat) (most : Option Nat) :
    Nat → Nat → Nat → Nat × Nat
  | 0, count, stop => (count,stop)
  | fuel + 1, count, stop =>
    if most.any (· ≤ count) then (count,stop)
    else match (if count = 0 then some stop else separator stop).bind element with
      | none => (count,stop)
      | some j =>
        if j = stop ∧ least ≤ count + 1 then (count + 1,j)
        else rounds element separator least most fuel (count + 1) j

def times (r : Recogniser) (least : Nat) (most : Option Nat) (separator : Recogniser) :
    Recogniser := fun t i =>
  let all := rounds (r t) (separator t) least most (Parsing.roundLimit t least i) 0 i
  if all.1 < least then none else some all.2

variable (r s u : Recogniser)

@[simp] theorem accept_andThen : accept.andThen r = r := rfl

theorem andThen_accept : r.andThen accept = r := by
  funext t i
  cases h : r t i <;> simp [andThen,accept,h]

theorem andThen_assoc : (r.andThen s).andThen u = r.andThen (s.andThen u) := by
  funext t i
  exact Option.bind_assoc ..

@[simp] theorem refuse_orElse : refuse.orElse r = r := rfl

theorem orElse_refuse : r.orElse refuse = r := by
  funext t i
  exact Option.or_none

theorem orElse_assoc : (r.orElse s).orElse u = r.orElse (s.orElse u) := by
  funext t i
  exact Option.or_assoc

end Recogniser

/-- A terminal that looks for given characters or for a place.  A single character is a word. -/
inductive Leaf
  | start
  | finish
  | pass
  | fail
  | word (w : Text)
  | oneOf (chars : Text)
  | runOf (chars : Text) (least : Nat)

namespace Terminal

def leaf? : Terminal → Option Leaf
  | start => some .start
  | finish => some .finish
  | pass => some .pass
  | fail => some .fail
  | literal w => some (.word w)
  | char c => some (.word [c])
  | oneOf chars => some (.oneOf chars)
  | runOf chars least => some (.runOf chars least)
  | compound _ | satisfying .. | regex .. => none

end Terminal

def Leaf.terminal : Leaf → Terminal
  | start => .start
  | finish => .finish
  | pass => .pass
  | fail => .fail
  | word w => .literal w
  | oneOf chars => .oneOf chars
  | runOf chars least => .runOf chars least

namespace Terminal

/-- What a terminal accepts. -/
def recogniser (s : Terminal) : Recogniser := fun t i =>
  match s.scan t i with
  | .ok (some j) => some j.toNat
  | _ => none

/-- From the first character on, a character is found where the word is found that it makes. -/
theorem scan_char_eq (c : Char) (t : Text) (i : Nat) :
    (char c).scan t i = (literal [c]).scan t i := by
  simp only [scan,scanOne,Text.ahead_natCast,Text.startsAt,Text.bound_natCast]
  cases t.drop i with
  | nil => rfl
  | cons d u =>
    by_cases h : d = c
    · simp [h]
    · have hd : (d == c) = false := by simpa using h
      simp [hd,Ne.symm h]

theorem recogniser_of_leaf {s : Terminal} {l : Leaf} (h : s.leaf? = some l) :
    s.recogniser = l.terminal.recogniser := by
  cases s <;> cases h
  case char c =>
    funext t i
    simp only [recogniser,scan_char_eq,Leaf.terminal]
  all_goals rfl

/-- A leaf never raises anything, from the first character on. -/
theorem scan_of_leaf {s : Terminal} (h : s.leaf?.isSome = true) (t : Text) (i : Nat) :
    s.scan t i = .ok ((s.recogniser t i).map (↑)) := by
  rw [recogniser]
  rcases hs : s.scan t i with fault | _ | j
  · have hraises := raises_of_scan (by omega) hs
    cases s <;> first | exact hraises.elim | cases h
  · rfl
  · have hreach : t.Reaches False i j := reaches_of_scan False.elim hs
    have := hreach.onward
    simp only [Option.map_some,Except.ok.injEq,Option.some.injEq]
    omega

end Terminal

namespace Parser

mutual
/-- What a parser accepts, where that depends on no value and on no rule. -/
def recogniser : Parser → Recogniser
  | terminal _ s => s.recogniser
  | seq _ parts => recogniserAll parts
  | choice branches => recogniserAny branches
  | rep _ element least most separator =>
    (recogniser element).times least.toNat (most.map (·.toNat)) (recogniser separator)
  | opt body => (recogniser body).opt
  | not body => (recogniser body).not
  | cut body | map _ body .. | capture body | log _ body .. => recogniser body
  | flatMap .. | filter .. | rule .. => .refuse

def recogniserAll : List Parser → Recogniser
  | [] => .accept
  | p :: ps => (recogniser p).andThen (recogniserAll ps)

def recogniserAny : List Parser → Recogniser
  | [] => .refuse
  | p :: ps => (recogniser p).orElse (recogniserAny ps)
end

/-- The parsers made of terminals that look for given characters and places, by sequences and
choices of at least two parsers, repetitions, options, negations, captures and mappings by functions
that never raise. -/
inductive Plain : Parser → Prop
  | terminal {id : Ident} {s : Terminal} : s.leaf?.isSome = true → Plain (.terminal id s)
  | seq {id : Ident} {ps : List Parser} : 2 ≤ ps.length → (∀ p ∈ ps, Plain p) → Plain (.seq id ps)
  | choice {ps : List Parser} : 2 ≤ ps.length → (∀ p ∈ ps, Plain p) → Plain (.choice ps)
  | rep {id : Ident} {p q : Parser} (least : Nat) (most : Option Nat) :
    Plain p → Plain q → Plain (.rep id p (.whole least) (most.map fun n : Nat => .whole n) q)
  | opt {p : Parser} : Plain p → Plain (.opt p)
  | not {p : Parser} : Plain p → Plain (.not p)
  | map {id : Ident} {p : Parser} {f : Value → Except Fault Value} {name : Text} :
    (∀ v, ∃ u, f v = .ok u) → Plain p → Plain (.map id p f name)
  | capture {p : Parser} : Plain p → Plain (.capture p)

theorem Plain.children {p q : Parser} (h : p.Plain) (hq : q ∈ p.children) : q.Plain := by
  cases h with
  | terminal _ => cases hq
  | seq _ hps | choice _ hps => exact hps q hq
  | rep _ _ hp hr =>
    simp only [Parser.children,List.mem_cons,List.not_mem_nil,or_false] at hq
    rcases hq with rfl | rfl
    · exact hp
    · exact hr
  | opt hp | not hp | map _ hp | capture hp =>
    obtain rfl := List.mem_singleton.mp hq
    exact hp

end Parser

/-- An outcome without a cut, a success just where one is expected. -/
inductive Outcome.Recognised (t : Text) (i : Nat) (e : Option Nat) : Outcome → Prop
  | success {v : Value} {j : Nat} : e = some j → t.Reaches False i j →
    Recognised t i e (.success v j false)
  | failure {j : Int} {cause : Parser} : e = none → Recognised t i e (.failure j cause false)

namespace Outcome.Recognised

variable {t : Text} {i j : Nat} {e : Option Nat} {o : Outcome}

theorem trans (h : t.Reaches False i j) (ho : o.Recognised t j e) : o.Recognised t i e := by
  cases ho with
  | success he hr => exact .success he (h.trans hr)
  | failure he => exact .failure he

end Outcome.Recognised

namespace Parsing.Logic

variable {m : Type → Type} [Monad m] [Abrupt m] {E : Fault → Prop}
  {H : (α : Type) → m α → (α → Prop) → Prop} {t : Text} {step : Parser → Int → m Outcome}

theorem sequence_recognised (hH : Logic E H) (parts : List (Parser × Bool))
    (h : ∀ x ∈ parts, ∀ i : Nat, H _ (step x.1 i) (Outcome.Recognised t i (x.1.recogniser t i)))
    (values : List Value) (i : Nat) :
    H _ (Parsing.sequence step parts values false i)
      (Outcome.Recognised t i (Parser.recogniserAll (parts.map Prod.fst) t i)) := by
  induction parts generalizing values i with
  | nil => exact hH.done (.success rfl (.refl t False i))
  | cons x rest ih =>
    obtain ⟨p,unit⟩ := x
    refine hH.bind (h (p,unit) (by simp) i) fun o ho => ?_
    have hall : Parser.recogniserAll (((p,unit) :: rest).map Prod.fst) t i =
        (p.recogniser t i).bind (Parser.recogniserAll (rest.map Prod.fst) t) := rfl
    rw [hall]
    cases ho with
    | failure he => exact hH.done (.failure (by rw [he]; rfl))
    | @success v j he hr =>
      rw [he]
      exact hH.imp (ih (fun y hy => h y (by simp [hy])) _ j) fun o ho => ho.trans hr

theorem choice_recognised (hH : Logic E H) (whole : Parser) (i : Nat) (branches : List Parser)
    (h : ∀ q ∈ branches, H _ (step q i) (Outcome.Recognised t i (q.recogniser t i))) :
    H _ (Parsing.choice step whole i branches)
      (Outcome.Recognised t i (Parser.recogniserAny branches t i)) := by
  induction branches with
  | nil => exact hH.done (.failure rfl)
  | cons p ps ih =>
    refine hH.bind (h p (by simp)) fun o ho => ?_
    have hany : Parser.recogniserAny (p :: ps) t i =
        (p.recogniser t i).or (Parser.recogniserAny ps t i) := rfl
    rw [hany]
    cases ho with
    | success he hr =>
      rw [he]
      exact hH.done (.success rfl hr)
    | failure he =>
      rw [he]
      exact ih fun q hq => h q (by simp [hq])

variable {element separator : Int → m Outcome} {r s : Nat → Option Nat}

theorem gap_recognised (hH : Logic E H) (values : List Value) (count stop : Nat)
    (hs : ∀ i : Nat, H _ (separator i) (Outcome.Recognised t i (s i))) :
    H _ (Parsing.gap separator ⟨values,count,false,stop⟩)
      (Outcome.Recognised t stop (if count = 0 then some stop else s stop)) := by
  rw [Parsing.gap]
  by_cases h : count = 0
  · rw [if_pos h,if_pos h]
    exact hH.done (.success rfl (.refl t False stop))
  · rw [if_neg h,if_neg h]
    exact hs stop

theorem rounds_recognised (hH : Logic E H)
    (he : ∀ i : Nat, H _ (element i) (Outcome.Recognised t i (r i)))
    (hs : ∀ i : Nat, H _ (separator i) (Outcome.Recognised t i (s i))) (least : Nat)
    (most : Option Nat) (fuel : Nat) (values : List Value) (count stop : Nat)
    (hfuel : roundsLeft t least ⟨values,count,false,stop⟩ < fuel) :
    H _ (Parsing.rounds element separator least most fuel ⟨values,count,false,stop⟩) fun tally =>
      ∃ all : List Value × Nat × Nat,
        all.2 = Recogniser.rounds r s least most fuel count stop ∧
          tally = ⟨all.1,all.2.1,false,all.2.2⟩ ∧ t.Reaches False stop all.2.2 := by
  induction fuel generalizing values count stop with
  | zero => omega
  | succ fuel ih =>
    rw [Parsing.rounds,Recogniser.rounds]
    by_cases hm : most.any (· ≤ count) = true
    · rw [if_pos hm,if_pos hm]
      exact hH.done ⟨(values,count,stop),rfl,rfl,.refl t False stop⟩
    rw [if_neg hm,if_neg hm]
    refine hH.bind (hH.gap_recognised values count stop hs) fun o ho => ?_
    cases ho with
    | failure hgap =>
      rw [hgap]
      exact hH.done ⟨(values,count,stop),rfl,rfl,.refl t False stop⟩
    | @success v start hgap hstart =>
      rw [hgap,Option.bind_some]
      refine hH.bind (he start) fun o ho => ?_
      cases ho with
      | failure hround =>
        rw [hround]
        exact hH.done ⟨(values,count,stop),rfl,rfl,.refl t False stop⟩
      | @success u j hround hj =>
        have hreach : t.Reaches False stop j := hstart.trans hj
        rw [hround]
        simp only [Bool.or_false,Int.natCast_inj]
        by_cases hstay : j = stop ∧ least ≤ count + 1
        · rw [if_pos hstay,if_pos hstay]
          exact hH.done ⟨(u :: values,count + 1,j),rfl,rfl,hreach⟩
        · rw [if_neg hstay,if_neg hstay]
          refine hH.imp (ih (u :: values) (count + 1) j ?_) ?_
          · -- Another round is one of the least, or this one has moved on within the text.
            have := hreach.onward
            have := hreach.past
            simp only [roundsLeft] at hfuel ⊢
            omega
          · rintro tally ⟨all,hall,ht,hr⟩
            exact ⟨all,hall,ht,hreach.trans hr⟩

theorem repetition_recognised (hH : Logic E H)
    (he : ∀ i : Nat, H _ (element i) (Outcome.Recognised t i (r i)))
    (hs : ∀ i : Nat, H _ (separator i) (Outcome.Recognised t i (s i))) (least : Nat)
    (most : Option Nat) (whole : Parser) (i : Nat) :
    H _ (Parsing.repetition element separator least most whole t i)
      (Outcome.Recognised t i
        (let all := Recogniser.rounds r s least most (roundLimit t least i) 0 i
          if all.1 < least then none else some all.2)) := by
  have hfuel : roundsLeft t least ⟨[],0,false,i⟩ < roundLimit t least i := by
    simp only [roundsLeft,roundLimit]
    omega
  refine hH.bind (hH.rounds_recognised he hs least most _ [] 0 i hfuel) ?_
  rintro tally ⟨⟨values,all⟩,hall,rfl,hr⟩
  rw [← hall]
  dsimp only
  split
  · exact hH.done (.failure rfl)
  · exact hH.done (.success rfl hr)

theorem node_recognised (hH : Logic E H) {e : Surroundings m} {p : Parser} (hp : p.Plain)
    (hshape : ∀ id parts, p = .seq id parts →
      H _ (e.shape id parts) fun units => (parts.zip units).map Prod.fst = parts)
    (h : ∀ q ∈ p.children, ∀ i : Nat,
      H _ (step q i) (Outcome.Recognised t i (q.recogniser t i))) (i : Nat) :
    H _ (Parsing.node e t step p i) (Outcome.Recognised t i (p.recogniser t i)) := by
  cases hp with
  | @terminal id s hs =>
    have hscan := Terminal.scan_of_leaf hs t i
    have hreach {j : Int} : s.scan t i = .ok (some j) → t.Reaches False i j :=
      Terminal.reaches_of_scan False.elim
    rw [Parsing.node,hscan]
    rw [hscan] at hreach
    change H _ _ (Outcome.Recognised t i (s.recogniser t i))
    cases hr : s.recogniser t i with
    | none => exact hH.done (.failure rfl)
    | some j => exact hH.done (.success rfl (hreach (by rw [hr]; rfl)))
  | @seq id ps _ _ =>
    refine hH.bind (hshape id ps rfl) fun units hunits => ?_
    have hparts := hH.sequence_recognised (ps.zip units)
      (fun x hx => h x.1 (List.of_mem_zip hx).1) [] i
    rwa [hunits] at hparts
  | choice => exact hH.choice_recognised _ i _ fun q hq => h q hq i
  | rep =>
    exact hH.repetition_recognised (h _ (by simp [Parser.children]))
      (h _ (by simp [Parser.children])) _ _ _ i
  | @opt p _ =>
    refine hH.bind (h p (by simp [Parser.children]) i) fun o ho => ?_
    have hopt : p.opt.recogniser t i = (p.recogniser t i).or (some i) := rfl
    rw [hopt]
    cases ho with
    | success he hr =>
      rw [he]
      exact hH.done (.success rfl hr)
    | failure he =>
      rw [he]
      exact hH.done (.success rfl (.refl t False i))
  | @not p _ =>
    refine hH.bind (h p (by simp [Parser.children]) i) fun o ho => ?_
    have hnot : p.not.recogniser t i = if (p.recogniser t i).isSome then none else some i := rfl
    rw [hnot]
    cases ho with
    | success he hr =>
      rw [he]
      exact hH.done (.failure rfl)
    | failure he =>
      rw [he]
      exact hH.done (.success rfl (.refl t False i))
  | @map id p f name hf _ =>
    refine hH.bind (h p (by simp [Parser.children]) i) fun o ho => ?_
    cases ho with
    | @success v j he hr =>
      obtain ⟨u,hu⟩ := hf v
      simp only [hu]
      exact hH.done (.success he hr)
    | failure he => exact hH.done (.failure he)
  | @capture p _ =>
    refine hH.bind (h p (by simp [Parser.children]) i) fun o ho => ?_
    cases ho with
    | success he hr => exact hH.done (.success he hr)
    | failure he => exact hH.done (.failure he)

end Parsing.Logic

namespace Grammar

variable {G : Grammar} {t : Text} {p : Parser}

variable {w : World} {c : Context}

/-- Reaching one value, with no hook told, is kept by composing. -/
theorem reaches_logic (G : Grammar) (w : World) :
    Parsing.Logic (fun _ => False) fun (α : Type) (x : Nested α) Q =>
      ∃ a, (∀ u, G.Reaches w u.tracing x (.value a,u)) ∧ Q a where
  done hQ := ⟨_,fun _ => ⟨0,fun _ _ s hs => ⟨s,rfl,hs⟩⟩,hQ⟩
  imp h hPQ := h.imp fun a ha => ⟨ha.1,hPQ a ha.2⟩
  bind := by
    rintro α β x f P Q ⟨a,hx,hP⟩ hf
    obtain ⟨b,hb,hQ⟩ := hf a hP
    exact ⟨b,fun u => (hx u).bind (hb u),hQ⟩
  raise hE := hE.elim

/-- A plain parser over a grammar ends everywhere as its recogniser says; no hook is called. -/
theorem reaches_recognised (hw : G.Supplied w fun _ => 0) (hp : G.Has p) (hplain : p.Plain)
    (i : Nat) :
    ∃ o, (∀ u, G.Reaches w u.tracing (fun n => Parsing.run w c n p i) (.value o,u)) ∧
      o.Recognised c.text i (p.recogniser c.text i) := by
  have hH := reaches_logic G w
  revert hplain i
  refine Parser.Over.downward ?_ (hp : p.Over G.rules G.parts)
  intro p hp ih hplain i
  have hnode : ∃ o, (∀ u, G.Reaches w u.tracing (Parsing.node (Parsing.nestedSurroundings w c) c.text
      (fun q j n => Parsing.run w c n q j) p i) (.value o,u)) ∧
        o.Recognised c.text i (p.recogniser c.text i) := by
    refine hH.node_recognised hplain ?_ (fun q hq => ih q (.child hq) (hplain.children hq)) i
    rintro id parts rfl
    exact ⟨_,reaches_shape hw hp,List.map_fst_zip (by simp)⟩
  rw [funext (Parsing.run_succ w c p i)] at hnode
  exact hnode.imp fun o ho => ⟨fun u => (ho.1 u).succ,ho.2⟩

/-- A parse with a plain parser ends as its recogniser says, at every depth that is large enough. -/
theorem parse_recognised (hw : ∀ r ∈ G.rules, w.supply r 0 = .ok (G.body r))
    (hp : G.Has p) (hplain : p.Plain) (i : Nat) (hook : Option HookId) (config : Option Config)
    {s : State} (hs : G.Settled (fun _ => 0) s.memory) :
    ∃ o deep, (∀ limit ≥ deep, (Parsing.parse w limit p t i hook config s).1 = .value o) ∧
      o.Recognised t i (p.recogniser t i) := by
  have hw' : G.Supplied w fun _ => 0 := fun r hr => ⟨by simp,hw r hr⟩
  obtain ⟨o,hreaches,ho⟩ := reaches_recognised
    (c := ⟨t,hook.or s.ambientHook,config.or s.ambientConfig⟩) hw' hp hplain i
  obtain ⟨deep,hr⟩ := hreaches (s.setDepth 0)
  refine ⟨o,deep,fun limit hl => ?_,ho⟩
  obtain ⟨u,hu,-⟩ := hr limit hl (s.setDepth 0) ⟨hs,.refl w _⟩
  exact congrArg Prod.fst hu

end Grammar
end Peg
