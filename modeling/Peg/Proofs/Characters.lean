import Peg.Proofs.Grouping
import Peg.Proofs.Places

/-! Terminals and the characters that they read.
A run of characters of a set is read at once by one terminal, or one character at a time by a
repetition; a word is read as a whole, or one character at a time by a sequence.  Main statements:
from every position both ways end alike. -/
namespace Peg

namespace Text

variable {t u v : Text} {i : Int}

/-- What lies ahead of the next position is what follows the first character ahead. -/
theorem ahead_succ {c : Char} {r : Text} (h : t.ahead i = some (c :: r)) :
    t.ahead (i + 1) = some r := by
  rw [ahead] at h
  by_cases hi : 0 ≤ i
  · rw [if_pos hi,Option.some_inj] at h
    rw [ahead_of_nonneg t (by omega),Int.toNat_add hi (by omega),Int.toNat_one,← List.tail_drop,h]
    rfl
  · rw [if_neg hi] at h
    by_cases hlen : -t.length ≤ i
    · rw [if_pos hlen,Option.some_inj,List.drop_eq_getElem_cons (by omega),List.cons_append,
        List.cons.injEq] at h
      obtain ⟨-,rfl⟩ := h
      -- behind the last character a text goes on with its beginning
      by_cases hlast : i + 1 = 0
      · have hall : (i + t.length).toNat + 1 = t.length := by omega
        rw [hlast,hall,List.drop_length]
        rfl
      · have hnext : (i + 1 + t.length).toNat = (i + t.length).toNat + 1 := by omega
        rw [ahead,if_neg (by omega),if_pos (by omega),hnext]
    · rw [if_neg hlen] at h
      cases h

/-- The longest run of characters of a set that a text begins with. -/
structure IsLongestRun (chars u v : Text) : Prop where
  isPrefix : v <+: u
  member : ∀ c ∈ v, c ∈ chars
  longest : ∀ v', v' <+: u → (∀ c ∈ v', c ∈ chars) → v'.length ≤ v.length

theorem isLongestRun_takeWhile (chars u : Text) :
    IsLongestRun chars u (u.takeWhile (chars.contains ·)) where
  isPrefix := List.takeWhile_prefix _
  member c hc := by
    have hall := List.all_eq_true.mp (List.all_takeWhile (p := (chars.contains ·)) (l := u)) c hc
    simpa using hall
  longest := by
    rintro v ⟨rest,rfl⟩ hv
    rw [List.takeWhile_append_of_pos (by simpa using hv),List.length_append]
    exact Nat.le_add_right _ _

end Text

/-- Outcomes that end in the same way at the same position, both without a cut. -/
structure Outcome.SameEnd (o o' : Outcome) : Prop where
  isSuccess : o.isSuccess = o'.isSuccess
  index : o.index = o'.index
  hasCut : o.hasCut = false
  hasCut' : o'.hasCut = false

/-- A repetition without an upper bound is built if its lower one is not below zero. -/
theorem Parser.between_whole {least : Int} (h : 0 ≤ least) (id : Ident) (p : Parser) :
    between id p (.whole least) none none =
      .ok (.rep id p (.whole least) none (.terminal (.part 1 id) .pass)) := by
  have hbelow : (Quantity.whole least).below 0 = false := by
    show decide ((least : Rat) < ((0 : Int) : Rat)) = false
    rw [decide_eq_false_iff_not,Rat.intCast_lt_intCast]
    omega
  rw [between,hbelow]
  rfl

/-- The outcome of a run of characters of which at least so many are needed. -/
def Outcome.ofRun (i : Int) (length least : Nat) (v : Value) (cause : Parser) : Outcome :=
  if length < least then .failure i cause false else .success v (i + length) false

namespace Outcome

variable {i : Int} {length least : Nat} {v v' : Value} {cause cause' : Parser}

/-- The ends of a run do not depend on its value and on its cause. -/
theorem sameEnd_ofRun :
    (ofRun i length least v cause).SameEnd (ofRun i length least v' cause') := by
  unfold ofRun
  split
  · exact ⟨rfl,rfl,rfl,rfl⟩
  · exact ⟨rfl,rfl,rfl,rfl⟩

theorem isSuccess_ofRun : (ofRun i length least v cause).isSuccess = true ↔ least ≤ length := by
  unfold ofRun
  split
  · exact iff_of_false Bool.false_ne_true (by omega)
  · exact iff_of_true rfl (by omega)

theorem index_ofRun (h : (ofRun i length least v cause).isSuccess = true) :
    (ofRun i length least v cause).index = i + length := by
  rw [ofRun,if_neg (Nat.not_lt_of_le (isSuccess_ofRun.mp h))]
  rfl

end Outcome

namespace Parsing

section Runs

variable {c : Context} {chars u v : Text} {i : Int} {t : Tally}

theorem attempt_oneOf (w : World) (c : Context) (n : Nat) (chars : Text) (a b : Ident) (t : Tally)
    (s : State) :
    attempt (run w c (n + 1) (.terminal a (.oneOf chars)))
        (run w c (n + 1) (.terminal b .pass)) t s =
      match (Terminal.oneOf chars).scan c.text t.stop with
      | .ok (some j) => (.value (.ok ⟨.none,false,j⟩),s)
      | .ok none => (.value (.error false),s)
      | .error fault => (.raised fault,s) := by
  have hgap : gap (run w c (n + 1) (.terminal b .pass)) t s =
      (.value (.success .none t.stop false),s) := by
    unfold gap
    split <;> rfl
  rw [attempt,Run.bind_of_value hgap]
  dsimp only
  rw [Run.bind_apply,run_terminal]
  rcases (Terminal.oneOf chars).scan c.text t.stop with fault | _ | j
  · rfl
  · rfl
  · rfl

/-- One round for each character of a run, and then one attempt that fails. -/
theorem repeats_of_run (w : World) (c : Context) (n least : Nat) (a b : Ident) (s : State)
    (hv : ∀ d ∈ v, d ∈ chars) (hu : ∀ d ∈ u.head?, d ∉ chars)
    (h : c.text.ahead t.stop = some (v ++ u)) :
    ∃ rs t', Repeats (run w c (n + 1) (.terminal a (.oneOf chars)))
        (run w c (n + 1) (.terminal b .pass)) least none t s rs 1 t' s ∧
      rs.length = v.length ∧ Round.lastStop t.stop rs = t.stop + v.length ∧ t'.cut = t.cut := by
  induction v generalizing t with
  | nil =>
    have hmiss := attempt_oneOf w c n chars a b t s
    have hscan : (Terminal.oneOf chars).scan c.text t.stop = .ok none := by
      rw [Terminal.scan,Terminal.scanOne,h]
      cases u with
      | nil => rfl
      | cons d u => simp [hu d rfl]
    rw [hscan] at hmiss
    exact ⟨[],_,.missed rfl hmiss,rfl,by simp [Round.lastStop],by simp⟩
  | cons d v ih =>
    have hround := attempt_oneOf w c n chars a b t s
    have hscan : (Terminal.oneOf chars).scan c.text t.stop = .ok (some (t.stop + 1)) := by
      rw [Terminal.scan,Terminal.scanOne,h]
      simp [hv d (by simp)]
    rw [hscan] at hround
    obtain ⟨rs,t',hrs,hlen,hstop,hcut⟩ := ih (t := t.after ⟨.none,false,t.stop + 1⟩)
      (fun d hd => hv d (by simp [hd])) (Text.ahead_succ h)
    -- a round that reads a character never stops the loop for having taken nothing
    have hmoved : ¬(t.stop + 1 = t.stop ∧ least ≤ t.count + 1) := by omega
    refine ⟨_ :: rs,t',.next rfl hround hmoved hrs,by simp [hlen],?_,?_⟩
    · rw [Tally.stop_after] at hstop
      rw [Round.lastStop,hstop,List.length_cons]
      push_cast
      omega
    · simpa [Tally.after] using hcut

/-- A repetition of one character of a set reads the longest run of them. -/
theorem run_rep_oneOf (w : World) (c : Context) (n : Nat) (chars : Text) (a b e : Ident) (k : Int)
    (s : State) (h : c.text.ahead i = some u) :
    let p : Parser := .rep b (.terminal a (.oneOf chars)) (.whole k) none (.terminal e .pass)
    let length := (u.takeWhile (chars.contains ·)).length
    ∃ vs, run w c (n + 2) p i s = (.value (.ofRun i length k.toNat (.list vs) p),s) := by
  intro p length
  have hsplit : u.takeWhile (chars.contains ·) ++ u.dropWhile (chars.contains ·) = u :=
    List.takeWhile_append_dropWhile
  have hmember : ∀ d ∈ u.takeWhile (chars.contains ·), d ∈ chars :=
    (Text.isLongestRun_takeWhile chars u).member
  have hnext : ∀ d ∈ (u.dropWhile (chars.contains ·)).head?, d ∉ chars := by
    intro d hd
    have hnot := List.head?_dropWhile_not (chars.contains ·) u
    rw [Option.mem_def.mp hd] at hnot
    simpa using hnot
  have hahead : c.text.ahead (Tally.start i).stop =
      some (u.takeWhile (chars.contains ·) ++ u.dropWhile (chars.contains ·)) := by
    rw [hsplit]
    exact h
  obtain ⟨rs,t,hrs,hlen,hstop,hcut⟩ := repeats_of_run w c n k.toNat a e s hmember hnext hahead
  have hrounds : rs.length + 1 ≤ roundLimit c.text k.toNat i := by
    have hleft := Text.length_of_ahead h
    have hlength := congrArg List.length hsplit
    rw [List.length_append] at hlength
    unfold roundLimit
    omega
  refine ⟨rs.map Round.value,(hrs.repetition hrounds p).trans ?_⟩
  rw [hrs.outcome,hlen,hcut]
  change Round.lastStop i rs = i + length at hstop
  rw [hstop]
  rfl

/-- Before the first character there is nothing to repeat, only something to raise. -/
theorem run_rep_oneOf_before (w : World) (c : Context) (n : Nat) (chars : Text) (a b e : Ident)
    (k : Int) (s : State) (h : c.text.ahead i = none) :
    run w c (n + 2) (.rep b (.terminal a (.oneOf chars)) (.whole k) none (.terminal e .pass)) i s =
      (.raised (Terminal.before i),s) := by
  have hscan : (Terminal.oneOf chars).scan c.text i = .error (Terminal.before i) := by
    rw [Terminal.scan,Terminal.scanOne,h]
  have hattempt := attempt_oneOf w c n chars a e (.start i) s
  have hstop : (Tally.start i).stop = i := rfl
  rw [hstop,hscan] at hattempt
  change repetition (run w c (n + 1) (.terminal a (.oneOf chars)))
    (run w c (n + 1) (.terminal e .pass)) k.toNat none _ c.text i s = _
  rw [repetition_eq,Run.map_apply,roundLimit,rounds_succ,if_neg (by simp),
    Run.bind_of_raised hattempt]
  rfl

/-- The terminal for a run reads the longest one. -/
theorem run_runOf (w : World) (c : Context) (n : Nat) (chars : Text) (a : Ident) (least : Nat)
    (s : State) (h : c.text.ahead i = some u) :
    let length := (u.takeWhile (chars.contains ·)).length
    run w c (n + 1) (.terminal a (.runOf chars least)) i s =
      (.value (.ofRun i length least .none (.terminal a (.runOf chars least))),s) := by
  intro length
  rw [run_terminal,Terminal.scan,Terminal.scanRun,h,Outcome.ofRun]
  by_cases hlen : length < least
  · rw [if_pos hlen]
    dsimp only
    rw [if_neg (Nat.not_le_of_lt hlen)]
    rfl
  · rw [if_neg hlen]
    dsimp only
    rw [if_pos (Nat.le_of_not_lt hlen)]
    rfl

theorem run_runOf_before (w : World) (c : Context) (n : Nat) (chars : Text) (a : Ident)
    (least : Nat) (s : State) (h : c.text.ahead i = none) :
    run w c (n + 1) (.terminal a (.runOf chars least)) i s = (.raised (Terminal.before i),s) := by
  rw [run_terminal,Terminal.scan,Terminal.scanRun,h]
  rfl

end Runs

/-- A run of characters of a set is read alike by its own terminal and by a repetition of one
character of the set: from every position both succeed or both fail, at the same position and
without a cut, or both raise the same because the position lies before the first character.  From a
position in the text the longest run is read. -/
theorem runs_repeat_characters (w : World) (chars : Text) {least : Int} (hleast : 0 ≤ least)
    (a b e : Ident) :
    ∃ p q, Parser.runAtLeast a chars least = .ok p ∧
      Parser.between b (.terminal e (.oneOf chars)) (.whole least) none none = .ok q ∧
      ∀ limit ≥ 2, ∀ t i hook config s,
        let x := (parse w limit p t i hook config s).1
        let y := (parse w limit q t i hook config s).1
        x.Like Outcome.SameEnd y ∧ x ≠ .exhausted ∧
        (∀ fault, x = .raised fault ↔ i < -t.length ∧ fault = Terminal.before i) ∧
        (0 ≤ i → i ≤ t.length → ∃ v, Text.IsLongestRun chars (t.drop i.toNat) v ∧
          ∃ o, x = .value o ∧ (o.isSuccess = true ↔ least ≤ v.length) ∧
            (o.isSuccess = true → o.index = i + v.length)) := by
  have hrun : Parser.runAtLeast a chars least = .ok (.terminal a (.runOf chars least.toNat)) :=
    if_neg (by omega)
  refine ⟨_,_,hrun,Parser.between_whole hleast b _,fun limit hl t i hook config s => ?_⟩
  obtain ⟨n,rfl⟩ := Nat.exists_eq_add_of_le' hl
  intro x y
  let c : Context := ⟨t,hook.or s.ambientHook,config.or s.ambientConfig⟩
  cases h : t.ahead i with
  | none =>
    have hbefore : i < -t.length := (Text.ahead_eq_none_iff t i).mp h
    have hx : x = .raised (Terminal.before i) :=
      congrArg Prod.fst (run_runOf_before w c (n + 1) chars a least.toNat (s.setDepth 0) h)
    have hy : y = .raised (Terminal.before i) :=
      congrArg Prod.fst (run_rep_oneOf_before w c n chars e b (.part 1 b) least (s.setDepth 0) h)
    rw [hx,hy]
    refine ⟨.raised _,nofun,fun fault => ?_,fun hi => absurd hbefore (by omega)⟩
    rw [Answer.raised.injEq]
    exact ⟨fun hf => ⟨hbefore,hf.symm⟩,fun hf => hf.2.symm⟩
  | some u =>
    have hfrom : ¬i < -t.length := fun hi => by
      rw [(Text.ahead_eq_none_iff t i).mpr hi] at h
      cases h
    have hx := congrArg Prod.fst (run_runOf w c (n + 1) chars a least.toNat (s.setDepth 0) h)
    obtain ⟨vs,hy⟩ := run_rep_oneOf w c n chars e b (.part 1 b) least (s.setDepth 0) h
    replace hy := congrArg Prod.fst hy
    change x = _ at hx
    change y = _ at hy
    have hlongest := Text.isLongestRun_takeWhile chars u
    rw [hx,hy]
    generalize u.takeWhile (chars.contains ·) = v at hlongest ⊢
    refine ⟨.value Outcome.sameEnd_ofRun,nofun,fun fault => ⟨nofun,fun hi => absurd hi.1 hfrom⟩,
      fun hi _ => ⟨v,?_,_,rfl,?_,Outcome.index_ofRun⟩⟩
    · rw [Text.ahead_of_nonneg t hi,Option.some_inj] at h
      exact h ▸ hlongest
    · rw [Outcome.isSuccess_ofRun,Int.toNat_le]

/-- Two letters or more, from the last letter of a text on into its beginning, and from before the
text. -/
theorem runs_repeat_letters :
    let w : World := ⟨fun _ _ => .error .notAParser,fun _ => .recording none,fun _ => 0⟩
    0 ≤ (2 : Int) ∧ ∃ p q, Parser.runAtLeast (.named "run") "ab".toList 2 = .ok p ∧
      Parser.between (.named "letters") (.terminal (.named "letter") (.oneOf "ab".toList))
        (.whole 2) none none = .ok q ∧
      (parse w 2 p "ba".toList (-1) none none {}).1.Like Outcome.SameEnd
        (parse w 2 q "ba".toList (-1) none none {}).1 ∧
      (parse w 2 p "ba".toList (-3) none none {}).1 = .raised .beforeText := by
  intro w
  obtain ⟨p,q,hp,hq,h⟩ := runs_repeat_characters w "ab".toList (by decide : 0 ≤ (2 : Int))
    (.named "run") (.named "letters") (.named "letter")
  obtain ⟨hlike,-⟩ := h 2 (Nat.le_refl 2) "ba".toList (-1) none none {}
  obtain ⟨-,-,hraised,-⟩ := h 2 (Nat.le_refl 2) "ba".toList (-3) none none {}
  exact ⟨by decide,p,q,hp,hq,hlike,(hraised _).mpr ⟨by decide,rfl⟩⟩

end Parsing

namespace Text

/-- A single character stands where it is the first one ahead. -/
theorem startsAt_singleton {t u : Text} {i : Int} (h : t.ahead i = some u) (d : Char) :
    t.startsAt [d] i = (u.head? == some d) := by
  have hstarts : t.startsAt [d] i = ((t.drop (t.bound i)).head? == some d) := by
    rw [startsAt]
    cases t.drop (t.bound i) with
    | nil => rfl
    | cons x r => simp [List.isPrefixOf,BEq.comm]
  rw [hstarts]
  by_cases hi : 0 ≤ i
  · rw [ahead_of_nonneg t hi,Option.some_inj] at h
    rw [bound_of_nonneg t hi,h]
  · by_cases hlen : -t.length ≤ i
    · rw [ahead,if_neg hi,if_pos hlen,Option.some_inj] at h
      rw [bound,if_pos (by omega),← h,List.drop_eq_getElem_cons (by omega)]
      rfl
    · rw [ahead,if_neg hi,if_neg hlen] at h
      cases h

end Text

namespace Terminal

/-- A character is read as the word that it makes, from the first character of the text on. -/
theorem scan_char_eq_literal {t : Text} {i : Int} (h : -t.length ≤ i) (d : Char) :
    (char d).scan t i = (literal [d]).scan t i := by
  cases hu : t.ahead i with
  | none => exact absurd ((Text.ahead_eq_none_iff t i).mp hu) (by omega)
  | some u =>
    rw [scan,scan,scanOne,hu,Text.startsAt_singleton hu]
    cases u with
    | nil => rfl
    | cons x r =>
      by_cases hx : x = d
      · simp [hx]
      · simp [beq_false_of_ne hx]

/-- A word is read where the text goes on with it. -/
theorem scan_ofWord {t u : Text} {i : Int} (h : At t i u) (word : Text) :
    (ofWord word).scan t i = .ok (if word.isPrefixOf u then some (i + word.length) else none) := by
  match word with
  | [d] =>
    have hfrom : -t.length ≤ i := by
      have := h.nonneg
      omega
    exact (scan_char_eq_literal hfrom d).trans (scan_literal h [d])
  | [] | _ :: _ :: _ => exact scan_literal h _

end Terminal

/-- An outcome of reading a word: success behind the word where the text goes on with it, and
failure elsewhere. -/
structure Outcome.Reads (word u : Text) (i : Int) (o : Outcome) : Prop where
  isSuccess : o.isSuccess = true ↔ word <+: u
  index : o.isSuccess = true → o.index = i + word.length

namespace Outcome.Reads

variable {word u : Text} {i j : Int} {cut : Bool}

theorem success (h : word <+: u) {v : Value} (hj : j = i + word.length) :
    Reads word u i (.success v j cut) where
  isSuccess := iff_of_true rfl h
  index _ := hj

theorem failure (h : ¬word <+: u) {cause : Parser} : Reads word u i (.failure j cause cut) where
  isSuccess := iff_of_false Bool.false_ne_true h
  index hs := absurd hs Bool.false_ne_true

/-- What reads the rest of a word behind its first character has read the word. -/
theorem cons {d : Char} {o : Outcome} (h : Reads word u (i + 1) o) :
    Reads (d :: word) (d :: u) i o where
  isSuccess := h.isSuccess.trans (List.prefix_cons_inj d).symm
  index hs := by
    rw [h.index hs,List.length_cons]
    push_cast
    omega

end Outcome.Reads

namespace Grammar

variable {G : Grammar} {w : World} {c : Context} {t : Text}

theorem comes_terminal (id : Ident) (k : Terminal) (i : Int) :
    G.comes t (.terminal id k) i =
      match k.scan t i with
      | .ok (some j) => .value (.success .none j false)
      | .ok none => .value (.failure i (.terminal id k) false)
      | .error fault => .raised fault :=
  comes_eq _ i

/-- A sequence of single characters reads the word that they make. -/
theorem sequence_characters {word u : Text} {ps : List Parser} {i : Int}
    (hps : List.Forall₂ (fun d p => ∃ a, p = Parser.terminal a (.char d)) word ps)
    (h : At t i u) (values : List Value) (cut : Bool) :
    ∃ o, Parsing.sequence (G.comes t) (ps.zip (ps.map G.isUnit)) values cut i = .value o ∧
      o.Reads word u i := by
  induction hps generalizing i u values cut with
  | nil => exact ⟨_,rfl,.success List.nil_prefix (Int.add_zero i).symm⟩
  | @cons d p word ps hp _ ih =>
    obtain ⟨a,rfl⟩ := hp
    have hfirst := comes_terminal (G := G) (t := t) a (.char d) i
    rw [List.map_cons,List.zip_cons_cons,Parsing.sequence,hfirst]
    cases u with
    | nil =>
      rw [Terminal.scan_char_nil h]
      exact ⟨_,rfl,.failure (by simp)⟩
    | cons x u =>
      rw [Terminal.scan_char_cons h]
      by_cases hx : x = d
      · rw [if_pos hx]
        obtain ⟨o,ho,hreads⟩ := ih h.next
          (if G.isUnit (.terminal a (.char d)) then values else .none :: values) (cut || false)
        exact ⟨o,ho,hx ▸ hreads.cons⟩
      · rw [if_neg hx]
        exact ⟨_,rfl,.failure fun hpre => hx (List.cons_prefix_cons.mp hpre).1.symm⟩

/-- A word is read where the text goes on with it. -/
theorem comes_word {u : Text} {i : Int} (h : At t i u) (id : Ident) (word : Text) :
    ∃ o, G.comes t (.word id word) i = .value o ∧ o.Reads word u i := by
  rw [Parser.word,comes_terminal,Terminal.scan_ofWord h]
  by_cases hpre : word.isPrefixOf u = true
  · rw [if_pos hpre]
    exact ⟨_,rfl,.success (List.isPrefixOf_iff_prefix.mp hpre) rfl⟩
  · rw [if_neg hpre]
    exact ⟨_,rfl,.failure fun hp => hpre (List.isPrefixOf_iff_prefix.mpr hp)⟩

theorem takenAll_characters (id : Ident) (k : Nat) (word : Text) :
    List.Forall₂ (fun d p => ∃ a, p = Parser.terminal a (.char d)) word
      (Expr.takenAll id k (word.map fun d => .inr [d])) := by
  induction word generalizing k with
  | nil => exact .nil
  | cons d word ih => exact .cons ⟨_,rfl⟩ (ih (k + 1))

theorem takenAll_terminals (id : Ident) (k : Nat) (word : Text) :
    ∀ p ∈ Expr.takenAll id k (word.map fun d => .inr [d]), ∃ a s, p = Parser.terminal a s := by
  induction word generalizing k with
  | nil => exact List.forall_mem_nil _
  | cons d word ih => exact List.forall_mem_cons.mpr ⟨⟨_,_,rfl⟩,ih (k + 1)⟩

/-- Giving one answer from every state is kept by composing. -/
theorem answers_congruence :
    Parsing.Congruence fun (α : Type) (x : Run α) (a : Answer α) => ∀ s, (x s).1 = a where
  done _ _ := rfl
  bind := by
    intro α β x a f g hx hf s
    have hxs := hx s
    rw [Run.bind_apply]
    rcases h : x s with ⟨v | fault | _,u⟩
    all_goals
      rw [h] at hxs
      subst hxs
    · exact hf v u
    · rfl
    · rfl
  raise _ _ := rfl
  exhaust _ := rfl

theorem run_terminal_comes (w : World) (c : Context) (n : Nat) (id : Ident) (k : Terminal) (i : Int)
    (s : State) :
    (Parsing.run w c (n + 1) (.terminal id k) i s).1 = G.comes c.text (.terminal id k) i := by
  rw [Parsing.run_terminal,comes_terminal]
  rcases k.scan c.text i with fault | _ | j
  · rfl
  · rfl
  · rfl

/-- A terminal does what it comes to, and no hook is told of it. -/
theorem parsesTo_terminal (G : Grammar) (w : World) (c : Context) (id : Ident) (k : Terminal)
    (i : Int) : G.ParsesTo w c (.terminal id k) i (G.comes c.text (.terminal id k) i) := by
  refine ⟨1,fun limit hl s hook config _ hhook hconfig => ?_⟩
  obtain ⟨n,rfl⟩ := Nat.exists_eq_add_of_le' hl
  change (Parsing.run w ⟨c.text,hook.or s.ambientHook,config.or s.ambientConfig⟩ (n + 1)
    (.terminal id k) i (s.setDepth 0)).1 = G.comes c.text (.terminal id k) i
  rw [hhook,hconfig]
  exact run_terminal_comes w c n id k i _

/-- So does a sequence of terminals. -/
theorem parsesTo_terminals (hw : G.Supplied w fun _ => 0) {id : Ident} {ps : List Parser}
    (hps : ∀ p ∈ ps, ∃ a k, p = .terminal a k) (hp : G.Has (.seq id ps)) (i : Int) :
    G.ParsesTo w c (.seq id ps) i (G.comes c.text (.seq id ps) i) := by
  refine ⟨Parser.sizes ps + G.weight * G.pending [] + 2,?_⟩
  intro limit hl s hook config hs hhook hconfig
  obtain ⟨n,rfl⟩ := Nat.exists_eq_add_of_le' (Nat.le_trans (Nat.le_add_left 2 _) hl)
  obtain ⟨u,hshape,-⟩ := shape_exact hw hp (n := n + 1) (by omega) (s := s.setDepth 0) (hs.settled hw)
  have hrun : Parsing.run w c (n + 2) (.seq id ps) i (s.setDepth 0) =
      Parsing.sequence (Parsing.run w c (n + 1)) (ps.zip (ps.map G.isUnit)) [] false i u :=
    Run.bind_of_value hshape
  have hsequence : ∀ u, (Parsing.sequence (Parsing.run w c (n + 1)) (ps.zip (ps.map G.isUnit)) []
      false i u).1 = Parsing.sequence (G.comes c.text) (ps.zip (ps.map G.isUnit)) [] false i := by
    refine answers_congruence.sequence _ (fun x hx j s => ?_) [] false i
    obtain ⟨a,k,hk⟩ := hps x.1 (List.of_mem_zip hx).1
    rw [hk]
    exact run_terminal_comes w c n a k j s
  change (Parsing.run w ⟨c.text,hook.or s.ambientHook,config.or s.ambientConfig⟩ (n + 2)
    (.seq id ps) i (s.setDepth 0)).1 = G.comes c.text (.seq id ps) i
  rw [hhook,hconfig,hrun,hsequence u,comes_eq]
  rfl

/-- A character gives what the word gives that it makes. -/
theorem parse_char_equal_literal (w : World) (d : Char) (a b : Ident) {limit : Nat} (hl : limit ≥ 1)
    {t : Text} {i : Int} (hi : -t.length ≤ i) (hook : Option HookId) (config : Option Config)
    (s : State) :
    ∃ o o', (Parsing.parse w limit (.terminal a (.char d)) t i hook config s).1 = .value o ∧
      (Parsing.parse w limit (.terminal b (.literal [d])) t i hook config s).1 = .value o' ∧
      o.equal o' = true ∧ o.hasCut = o'.hasCut := by
  obtain ⟨n,rfl⟩ := Nat.exists_eq_add_of_le' hl
  have hparse (id : Ident) (k : Terminal) :
      (Parsing.parse w (n + 1) (.terminal id k) t i hook config s).1 = _ :=
    congrArg (fun x : Run Outcome => (x (s.setDepth 0)).1)
      (Parsing.run_terminal w ⟨t,hook.or s.ambientHook,config.or s.ambientConfig⟩ n id k i)
  rw [hparse,hparse,Terminal.scan_char_eq_literal hi]
  dsimp only [Terminal.scan]
  by_cases hd : t.startsAt [d] i = true
  · rw [if_pos hd]
    exact ⟨_,_,rfl,rfl,by simp [Outcome.equal,Value.equal],rfl⟩
  · rw [if_neg hd]
    exact ⟨_,_,rfl,rfl,by simp [Outcome.equal],rfl⟩

/-- A word is read like the sequence of its characters: from every position in the text both
succeed, at the same position, or both fail.  And a character is read like the word that it makes,
from the first character of the text on and also past its end. -/
theorem words_read_as_characters (G : Grammar) (w : World)
    (hw : ∀ r ∈ G.rules, w.supply r 0 = .ok (G.body r)) :
    (∀ (word : Text) names id id', ∃ q,
      (Expr.seqOf (word.map fun d => .text [d])).toParser names id = .ok q ∧
      (G.Has q → ∀ (c : Context) (i : Int), 0 ≤ i → i ≤ c.text.length →
        ∃ o o', G.ParsesTo w c (.word id' word) i (.value o) ∧ G.ParsesTo w c q i (.value o') ∧
          o.isSuccess = o'.isSuccess ∧ (o.isSuccess = true → o.index = o'.index))) ∧
    ∀ (d : Char) (a b : Ident), ∀ limit ≥ 1, ∀ (t : Text) (i : Int), -t.length ≤ i →
      ∀ hook config s, ∃ o o',
        (Parsing.parse w limit (.terminal a (.char d)) t i hook config s).1 = .value o ∧
        (Parsing.parse w limit (.terminal b (.literal [d])) t i hook config s).1 = .value o' ∧
        o.equal o' = true ∧ o.hasCut = o'.hasCut := by
  refine ⟨fun word names id id' => ?_,fun d a b limit hl t i hi hook config s =>
    parse_char_equal_literal w d a b hl hi hook config s⟩
  have hword : word.map (fun d => Expr.text [d]) =
      (word.map fun d => (.inr [d] : Parser ⊕ Text)).map Expr.ofOperand := by
    simp [Expr.ofOperand]
  refine ⟨_,hword ▸ Expr.seqOf_taken _,fun hq c i hi hlen => ?_⟩
  have hat : At c.text i (c.text.drop i.toNat) := by
    refine ⟨c.text.take i.toNat,(List.take_append_drop _ _).symm,?_⟩
    rw [List.length_take]
    omega
  obtain ⟨o,ho,hreads⟩ := comes_word (G := G) hat id' word
  obtain ⟨o',ho',hreads'⟩ :=
    sequence_characters (G := G) (takenAll_characters id 0 word) hat [] false
  have hseq : G.comes c.text (.seq id (Expr.takenAll id 0 (word.map fun d => .inr [d]))) i =
      .value o' := (comes_eq _ i).trans ho'
  have hw' : G.Supplied w fun _ => 0 := fun r hr => ⟨by simp,hw r hr⟩
  refine ⟨o,o',ho ▸ parsesTo_terminal G w c id' _ i,?_,?_,fun hs => ?_⟩
  · exact hseq ▸ parsesTo_terminals hw' (takenAll_terminals id 0 word) hq i
  · rw [Bool.eq_iff_iff,hreads.isSuccess,hreads'.isSuccess]
  · rw [hreads.index hs,hreads'.index (hreads'.isSuccess.mpr (hreads.isSuccess.mp hs))]

/-- Two letters, each read by a part of a sequence. -/
def spelled : Grammar where
  rules := []
  body _ := .word (.named "nothing") []
  parts
    | .named "on" =>
      some [.terminal (.part 0 (.named "on")) (.char 'o'),
        .terminal (.part 1 (.named "on")) (.char 'n')]
    | _ => none
  closed := List.forall_mem_nil _

theorem word_reads_as_letters :
    let w : World := ⟨fun _ _ => .error .notAParser,fun _ => .recording none,fun _ => 0⟩
    (∀ r ∈ spelled.rules, w.supply r 0 = .ok (spelled.body r)) ∧
      ∃ q, (Expr.seqOf [.text ['o'],.text ['n']]).toParser ⟨fun _ => none,fun _ => none,fun _ _ => none⟩
          (.named "on") = .ok q ∧ spelled.Has q ∧
        ∃ o o', spelled.ParsesTo w ⟨"upon".toList,none,none⟩ (.word (.named "word") "on".toList) 2
            (.value o) ∧ spelled.ParsesTo w ⟨"upon".toList,none,none⟩ q 2 (.value o') ∧
          o.isSuccess = o'.isSuccess ∧ (o.isSuccess = true → o.index = o'.index) := by
  intro w
  have hw : ∀ r ∈ spelled.rules, w.supply r 0 = .ok (spelled.body r) := List.forall_mem_nil _
  obtain ⟨q,hq,h⟩ := (words_read_as_characters spelled w hw).1 ['o','n']
    ⟨fun _ => none,fun _ => none,fun _ _ => none⟩ (.named "on") (.named "word")
  have hhas : spelled.Has q := by
    cases hq
    exact .seq rfl (List.forall_mem_cons.mpr ⟨.terminal,List.forall_mem_singleton.mpr .terminal⟩)
  exact ⟨hw,q,hq,hhas,h hhas ⟨"upon".toList,none,none⟩ 2 (by decide) (by decide)⟩

end Grammar
end Peg
