import Peg.Proofs.Agreement
import Peg.Proofs.Bounds

/-! Parsing from an index and parsing what is left of the text from there.
A terminal other than the start and a pattern looks ahead only, so that it does the same wherever
the text begins.  Main statement: without these two the parse of a text from an index and the parse
of the rest of the text end alike, with every position moved by that index. -/
namespace Peg

open Relation

/-- A position of a text and the same position once so many characters are dropped. -/
def Text.Later (k : Nat) (i j : Int) : Prop := i = j + k ∧ 0 ≤ j

namespace Text

variable {t : Text} {k : Nat} {i j : Int}

theorem ahead_drop (t : Text) (k : Nat) (hj : 0 ≤ j) :
    ahead (t.drop k) j = t.ahead (j + k) := by
  have htoNat : (j + k).toNat = k + j.toNat := by omega
  rw [ahead_of_nonneg _ hj,ahead_of_nonneg _ (by omega),List.drop_drop,htoNat]

theorem startsAt_drop (hk : k ≤ t.length) (hj : 0 ≤ j) (word : Text) :
    startsAt (t.drop k) word j = t.startsAt word (j + k) := by
  have hbound : t.bound (j + k) = k + bound (t.drop k) j := by
    rw [bound_of_nonneg _ hj,bound_of_nonneg _ (by omega)]
    omega
  rw [Bool.eq_iff_iff,startsAt_iff,startsAt_iff,hbound,List.drop_drop,List.length_drop]
  apply and_congr_right
  intro _
  omega

theorem places_drop (hk : k ≤ t.length) : t.Places (t.drop k) (Later k) where
  eq_iff := by
    rintro i i' j j' ⟨rfl,_⟩ ⟨rfl,_⟩
    omega
  slice := by
    rintro i i' j j' ⟨rfl,hi⟩ ⟨rfl,hj⟩
    have hi' : t.bound (i' + k) = k + bound (t.drop k) i' := by
      rw [bound_of_nonneg _ hi,bound_of_nonneg _ (by omega)]
      omega
    have hj' : t.bound (j' + k) = k + bound (t.drop k) j' := by
      rw [bound_of_nonneg _ hj,bound_of_nonneg _ (by omega)]
      omega
    rw [slice,slice,hi',hj',List.drop_drop,Nat.add_sub_add_left]
  left := by
    rintro i i' ⟨rfl,hi⟩
    rw [List.length_drop]
    omega

end Text

namespace Terminal

variable {t : Text} {k : Nat} {j : Int}

/-- Whether a terminal looks at what stands before the position where it is tried. -/
def looksBack : Terminal → Bool
  | start | regex .. => true
  | _ => false

theorem scanOne_drop (t : Text) (k : Nat) (hj : 0 ≤ j) (test : Char → Except Fault Bool) :
    Results (Option.Rel (Text.Later k)) (scanOne t (j + k) test) (scanOne (t.drop k) j test) := by
  rw [scanOne,scanOne,Text.ahead_drop t k hj,Text.ahead_of_nonneg t (by omega)]
  cases t.drop (j + k).toNat with
  | nil => exact .ok .none
  | cons c rest =>
    dsimp only
    rcases test c with fault | _ | _
    · exact .error fault
    · exact .ok .none
    · exact .ok (.some ⟨by omega,by omega⟩)

theorem offers_drop (hk : k ≤ t.length) (hj : 0 ≤ j) (vs : List Value) :
    offers (t.drop k) j vs = offers t (j + k) vs := by
  induction vs with
  | nil => rfl
  | cons v vs ih =>
    cases v with
    | str word => rw [offers,offers,ih,Text.startsAt_drop hk hj]
    | _ => rfl

theorem scanCompound_drop (hk : k ≤ t.length) (hj : 0 ≤ j) (v : Value) :
    Results (Option.Rel (Text.Later k)) (scanCompound t (j + k) v)
      (scanCompound (t.drop k) j v) := by
  unfold scanCompound
  split
  · exact scanOne_drop t k hj _
  · exact scanOne_drop t k hj _
  · exact scanOne_drop t k hj _
  · rename_i vs _
    rw [offers_drop hk hj]
    rcases offers t (j + k) vs with fault | _ | _
    · exact .error fault
    · exact .ok .none
    · exact .ok (.some ⟨by omega,by omega⟩)
  · exact .error _

/-- What a terminal that looks ahead only does is moved with the text. -/
theorem scan_drop {s : Terminal} (hs : s.looksBack = false) (hk : k ≤ t.length) (hj : 0 ≤ j) :
    Results (Option.Rel (Text.Later k)) (s.scan t (j + k)) (s.scan (t.drop k) j) := by
  cases s with
  | start | regex => cases hs
  | pass => exact .ok (.some ⟨rfl,hj⟩)
  | fail => exact .ok .none
  | finish =>
    have hend : (j + k = t.length) = (j = (t.drop k).length) := by
      rw [List.length_drop,eq_iff_iff]
      omega
    simp only [scan,hend]
    split
    · exact .ok (.some ⟨rfl,hj⟩)
    · exact .ok .none
  | literal word =>
    simp only [scan,Text.startsAt_drop hk hj]
    split
    · exact .ok (.some ⟨by omega,by omega⟩)
    · exact .ok .none
  | compound v => exact scanCompound_drop hk hj v
  | char c | oneOf chars | satisfying test name => exact scanOne_drop t k hj _
  | runOf chars least =>
    simp only [scan,scanRun,Text.ahead_drop t k hj]
    rw [Text.ahead_of_nonneg t (by omega)]
    dsimp only
    split
    · exact .ok (.some ⟨by omega,by omega⟩)
    · exact .ok .none

end Terminal

/-- Every node matches itself, over what lies right below it. -/
theorem Parser.matches_self (p : Parser) : p.Matches (fun x y => x = y ∧ p.Down x) p := by
  cases p with
  | terminal => exact .terminal
  | rule => exact .rule
  | seq id ps => exact .seq (List.forall₂_same.mpr fun x hx => ⟨rfl,.child hx⟩)
  | choice ps => exact .choice (List.forall₂_same.mpr fun x hx => ⟨rfl,.child hx⟩)
  | rep id element least most separator =>
    exact .rep ⟨rfl,.child (by simp [children])⟩ ⟨rfl,.child (by simp [children])⟩
  | flatMap id body next name =>
    exact .flatMap ⟨rfl,.child (by simp [children])⟩ fun v => .refl fun q hq => ⟨rfl,.next hq⟩
  | opt | not | cut | map | filter | capture | log =>
    constructor
    exact ⟨rfl,.child (by simp [children])⟩

namespace Run

variable {w : World} {α β : Type} {Q : α → β → Prop}

/-- What works on the memory alone is parallel to itself. -/
theorem Parallel.self {T : Tracing → Tracing → Prop} {x : Run α} {P : α → Prop} {Q : α → α → Prop}
    (hx : Rules.OnMemory x) (hg : x.Gives w (fun _ => True) P) (hQ : ∀ a, P a → Q a a) :
    Parallel (·.Supplied w) T α α Q x x := by
  intro s s' hs hm ht
  obtain ⟨hu,hP⟩ := hg s hs
  have hself := hx.untold s
  rw [hx s s' hm]
  refine ⟨?_,rfl,?_,hu⟩
  · rcases h : (x s).1 with a | fault | _
    · rw [h] at hP
      exact .value (hQ a hP)
    · exact .raised fault
    · exact .exhausted
  · rw [hself]
    exact ht

end Run

namespace Outcome

/-- The same outcome so many characters later. -/
def shift (k : Nat) : Outcome → Outcome
  | success v i cut => success v (i + k) cut
  | failure i cause cut => failure (i + k) cause cut

theorem eq_map_shift {k : Nat} {r r' : Answer Outcome}
    (h : r.Like (Outcome.Like (Text.Later k) (· = ·)) r') : r = r'.map (shift k) := by
  cases h with
  | raised | exhausted => rfl
  | value ho =>
    cases ho with
    | success hj => rw [hj.1]; rfl
    | failure hj hc => rw [hj.1,hc]; rfl

end Outcome

/-- A place in a text and the same place in the rest of the text. -/
def Context.Later (k : Nat) (p q : Context × Int) : Prop :=
  q.1 = { p.1 with text := p.1.text.drop k } ∧ Text.Later k p.2 q.2

/-- Hooks without a memory that do not look at how much of the text lies before their nodes, or hooks
that never raise. -/
abbrev World.Shifts (w : World) (k : Nat) : Prop :=
  w.Heeds (Context.Later k) (Outcome.Like (Text.Later k) (· = ·))

namespace Parsing

open Run

variable {w : World} {t : Text} {k : Nat}

/-- A parser in a text and in the rest of the text. -/
theorem parallel_run {c : Context} (hk : k ≤ c.text.length) (n : Nat) {p : Parser}
    (hp : ∀ id s, ReflTransGen w.Leads p (.terminal id s) → s.looksBack = false) {i j : Int}
    (hi : Text.Later k i j) :
    Parallel (·.Supplied w) (w.Indifferent (Context.Later k) (Outcome.Like (Text.Later k) (· = ·))) _ _
      (Outcome.Like (Text.Later k) (· = ·)) (run w c n p i)
      (run w { c with text := c.text.drop k } n p j) := by
  have hR := parallel_lockstep (·.Supplied w)
    (w.Indifferent (Context.Later k) (Outcome.Like (Text.Later k) (· = ·)))
  induction n generalizing p i j with
  | zero => exact hR.exhaust
  | succ n ih =>
    have hlead {q : Parser} (hq : w.Leads p q) {i j : Int} (hi : Text.Later k i j) :=
      ih (fun id s hs => hp id s (.head hq hs)) hi
    refine hR.node (Text.places_drop hk) p.matches_self rfl hi ?_ ?_ ?_ ?_ ?_
    · rintro id s rfl
      rw [hi.1]
      exact Terminal.scan_drop (hp id s .refl) hk hi.2
    · rintro x _ ⟨rfl,hx⟩ i j hij
      exact hlead (.of_down hx) hij
    · rintro id ps qs rfl hqs
      have hsame : ps = qs := List.forall₂_eq_eq_eq ▸ hqs.imp fun x y h => h.1
      rw [← hsame]
      exact .self (.shape (.isUnit n) id ps)
        (Rules.gives_shape (fun _ _ _ _ => trivial) n id ps fun _ => trivial) fun _ _ => rfl
    · rintro r name rfl
      refine hR.bind (P := fun a b => a = b ∧ ∃ m, w.supply r m = .ok a) ?_ ?_
      · exact .self (.body r) (Rules.gives_body (fun _ _ _ _ => trivial) r) fun _ h => ⟨rfl,h⟩
      · rintro q _ ⟨rfl,m,hq⟩
        have hbody := hlead (.body hq) hi
        have htraces : Context.tracesRules { c with text := c.text.drop k } = c.tracesRules := rfl
        rw [htraces]
        cases c.tracesRules with
        | some hook =>
          exact fun s s' hs hm ht =>
            hbody.traced (ht.traces ⟨rfl,hi⟩ rfl hook name _ _) hs hm ht
        | none => exact hbody
    · rintro id x _ name hook rfl ⟨rfl,hx⟩
      have hbody := hlead (.of_down hx) hi
      intro s s' hs hm ht
      exact hbody.traced (ht.traces_logged ⟨rfl,hi⟩ rfl rfl hook name _ _) hs hm ht

/-- Parsing from an index is parsing the rest of the text, with every position moved. -/
theorem parse_suffix {p : Parser} (hh : w.Shifts k)
    (hp : ∀ id s, ReflTransGen w.Leads p (.terminal id s) → s.looksBack = false)
    (hk : k ≤ t.length) (limit : Nat) {hook : Option HookId} {config : Option Config} {s s' : State}
    (hs : s.memory.Supplied w) (hmemory : s'.memory = s.memory)
    (hhook : s'.ambientHook = s.ambientHook) (hconfig : s'.ambientConfig = s.ambientConfig) :
    (parse w limit p t k hook config s).1 =
      ((parse w limit p (t.drop k) 0 hook config s').1).map (Outcome.shift k) := by
  have hstart : Text.Later k k 0 := ⟨by omega,Int.le_refl 0⟩
  obtain ⟨hlike,-⟩ := parallel_run (c := ⟨t,hook.or s.ambientHook,config.or s.ambientConfig⟩) hk limit
    hp hstart (s.setDepth 0) (s'.setDepth 0) hs hmemory (.steady hh rfl)
  have hparse : parse w limit p (t.drop k) 0 hook config s' =
      run w ⟨t.drop k,hook.or s.ambientHook,config.or s.ambientConfig⟩ limit p 0 (s'.setDepth 0) := by
    rw [← hhook,← hconfig]
    rfl
  rw [hparse]
  exact Outcome.eq_map_shift hlike

/-- The text of runs of letters, up to the end. -/
def allRuns : Parser :=
  .seq (.named "all") [.capture (.rule (.named "runs") "runs".toList),
    .terminal (.named "end") .finish]

theorem allRuns_ahead {hook : HookId → Hook} {clock : Nat → Rat} {id : Ident} {s : Terminal}
    (h : ReflTransGen (World.Leads ⟨fun _ _ => .ok letterRuns,hook,clock⟩) allRuns
      (.terminal id s)) : s.looksBack = false := by
  have hs : .terminal id s ∈ [allRuns,.capture (.rule (.named "runs") "runs".toList),
      .rule (.named "runs") "runs".toList,letterRuns,letterRuns.letters,.opt letterRuns.more,
      letterRuns.more,letterRuns.comma,.terminal (.named "end") .finish] := by
    refine World.reached_of_closed _ (by simp) (fun x y hx hl => ?_) h
    simp only [List.mem_cons,List.not_mem_nil,or_false] at hx
    rcases hx with rfl | rfl | rfl | rfl | rfl | rfl | rfl | rfl | rfl
    all_goals cases hl
    all_goals simp_all [Parser.children,allRuns,letterRuns,letterRuns.more,letterRuns.letters,
      letterRuns.comma]
    all_goals grind
  simp only [List.mem_cons,List.not_mem_nil,or_false,allRuns,letterRuns,letterRuns.more,
    letterRuns.letters,letterRuns.comma,reduceCtorEq,false_or,Parser.terminal.injEq] at hs
  rcases hs with ⟨-,rfl⟩ | ⟨-,rfl⟩ | ⟨-,rfl⟩ <;> rfl

theorem parse_runs_suffix :
    let w : World := ⟨fun _ _ => .ok letterRuns,fun _ => .recording none,fun _ => 0⟩
    (parse w 12 allRuns "?,ab,b".toList 2 none none {}).1 =
        .value (.success (.str "ab,b".toList) 6 false) ∧
      (parse w 12 allRuns "ab,b".toList 0 none none {}).1 =
        .value (.success (.str "ab,b".toList) 4 false) := by
  intro w
  have ho : (parse w 12 allRuns "ab,b".toList 0 none none {}).1 =
      .value (.success (.str "ab,b".toList) 4 false) := rfl
  have h : (parse w 12 allRuns "?,ab,b".toList 2 none none {}).1 =
      ((parse w 12 allRuns "ab,b".toList 0 none none {}).1).map (Outcome.shift 2) :=
    parse_suffix (k := 2) (.inr fun _ => Hook.calm_recording) (fun _ _ => allRuns_ahead) (by decide)
      12 (Memory.supplied_new w) rfl rfl rfl
  rw [ho] at h
  exact ⟨h,ho⟩

end Parsing
end Peg
