import Peg.Proofs.Bounds

/-! The rounds of a repetition, one by one.
A repetition is described by the rounds that succeed in it and by the attempt that fails after them,
if there is one; how many rounds are granted does not matter here.  Main statements: a repetition of
parsers that return and do not go back always ends, after as many rounds as there are to reach the
least count and places left in the text; an upper bound only keeps the first rounds; and a lower
bound only decides about the outcome, if no round stays where it is. -/
namespace Peg

/-- A round that succeeded: the value of the element, whether the separator or the element saw a
cut, and where the element ended. -/
structure Round where
  value : Value
  cut : Bool
  stop : Int

/-- Where the last of the rounds ended, or where they began. -/
def Round.lastStop (i : Int) : List Round → Int
  | [] => i
  | r :: rs => lastStop r.stop rs

namespace Tally

/-- Before the first round. -/
def start (i : Int) : Tally := ⟨[],0,false,i⟩

def after (t : Tally) (r : Round) : Tally := ⟨r.value :: t.values,t.count + 1,t.cut || r.cut,r.stop⟩

def afterAll (t : Tally) (rs : List Round) : Tally := rs.foldl after t

/-- The tally after an attempt that failed. -/
def afterMiss (t : Tally) (cut : Bool) : Tally := { t with cut := t.cut || cut }

/-- What a repetition makes of its last tally. -/
def outcome (least : Nat) (whole : Parser) (i : Int) (t : Tally) : Outcome :=
  if t.count < least then .failure i whole t.cut else .success (.list t.values.reverse) t.stop t.cut

variable (t : Tally) (r : Round) (rs : List Round)

@[simp] theorem count_after : (t.after r).count = t.count + 1 := rfl

@[simp] theorem stop_after : (t.after r).stop = r.stop := rfl

@[simp] theorem afterMiss_false : t.afterMiss false = t := by
  simp [afterMiss]

@[simp] theorem afterAll_nil : t.afterAll [] = t := rfl

@[simp] theorem afterAll_cons : t.afterAll (r :: rs) = (t.after r).afterAll rs := rfl

theorem afterAll_eq : t.afterAll rs = ⟨(rs.map Round.value).reverse ++ t.values,t.count + rs.length,
    t.cut || rs.any (·.cut),Round.lastStop t.stop rs⟩ := by
  induction rs generalizing t with
  | nil => simp [Round.lastStop]
  | cons r rs ih =>
    rw [afterAll_cons,ih]
    simp [after,Round.lastStop,Bool.or_assoc,Nat.add_comm,Nat.add_left_comm]

end Tally

namespace Parsing

section Attempts

variable {m : Type → Type} [Monad m]

/-- One attempt at a round: the separator, when one is due, and after it the element.  What comes of
it is a round, or the cut that was seen in an attempt that failed. -/
def attempt (element separator : Int → m Outcome) (t : Tally) : m (Except Bool Round) := do
  match ← gap separator t with
  | .failure _ _ c => pure (.error c)
  | .success _ start c =>
    match ← element start with
    | .failure _ _ d => pure (.error (c || d))
    | .success v stop d => pure (.ok ⟨v,c || d,stop⟩)

variable [Abrupt m]

theorem rounds_zero (element separator : Int → m Outcome) (least : Nat) (most : Option Nat)
    (t : Tally) : rounds element separator least most 0 t =
      if most.any (· ≤ t.count) then pure t else Abrupt.exhaust := by
  unfold rounds
  rfl

variable [LawfulMonad m]

/-- After an attempt that failed the rounds end; after a round they go on, unless it stayed where
it began and there are enough of them. -/
theorem rounds_succ (element separator : Int → m Outcome) (least : Nat) (most : Option Nat)
    (fuel : Nat) (t : Tally) : rounds element separator least most (fuel + 1) t =
      if most.any (· ≤ t.count) then pure t
      else attempt element separator t >>= fun
        | .error cut => pure (t.afterMiss cut)
        | .ok r =>
          if r.stop = t.stop ∧ least ≤ t.count + 1 then pure (t.after r)
          else rounds element separator least most fuel (t.after r) := by
  conv_lhs => unfold rounds
  split
  · rfl
  · dsimp only
    unfold attempt
    rw [bind_assoc]
    refine bind_congr fun o => ?_
    cases o with
    | failure j cause c =>
      rw [pure_bind]
      rfl
    | success u start c =>
      dsimp only
      rw [bind_assoc]
      refine bind_congr fun o => ?_
      cases o with
      | failure j cause d =>
        rw [pure_bind]
        simp [Tally.afterMiss,Bool.or_assoc]
      | success v stop d =>
        rw [pure_bind]
        simp [Tally.after,Bool.or_assoc]

/-- A repetition does its rounds and makes the outcome of the last tally. -/
theorem repetition_eq (element separator : Int → m Outcome) (least : Nat) (most : Option Nat)
    (whole : Parser) (text : Text) (i : Int) :
    repetition element separator least most whole text i =
      (Tally.outcome least whole i <$>
        rounds element separator least most (roundLimit text least i) (.start i)) := by
  rw [← bind_pure_comp]
  show (rounds element separator least most (roundLimit text least i) (.start i) >>= _) = _
  refine bind_congr fun t => ?_
  unfold Tally.outcome
  split <;> rfl

end Attempts

/-- The rounds that succeed from a tally on, how many attempts fail, and the last tally. -/
inductive Repeats (element separator : Step) (least : Nat) (most : Option Nat) :
    Tally → State → List Round → Nat → Tally → State → Prop
  | full {t : Tally} {s : State} : most.any (· ≤ t.count) = true →
    Repeats element separator least most t s [] 0 t s
  | missed {t : Tally} {s s' : State} {cut : Bool} : most.any (· ≤ t.count) = false →
    attempt element separator t s = (.value (.error cut),s') →
    Repeats element separator least most t s [] 1 (t.afterMiss cut) s'
  | stayed {t : Tally} {s s' : State} {r : Round} : most.any (· ≤ t.count) = false →
    attempt element separator t s = (.value (.ok r),s') → r.stop = t.stop → least ≤ t.count + 1 →
    Repeats element separator least most t s [r] 0 (t.after r) s'
  | next {t t' : Tally} {s s' s'' : State} {r : Round} {rs : List Round} {misses : Nat} :
    most.any (· ≤ t.count) = false → attempt element separator t s = (.value (.ok r),s') →
    ¬(r.stop = t.stop ∧ least ≤ t.count + 1) →
    Repeats element separator least most (t.after r) s' rs misses t' s'' →
    Repeats element separator least most t s (r :: rs) misses t' s''

section Rounds

variable {element separator : Step} {least fuel misses : Nat} {most : Option Nat} {t t' : Tally}
  {s s' : State} {rs : List Round}

namespace Repeats

/-- As many rounds as are run are enough. -/
theorem rounds (h : Repeats element separator least most t s rs misses t' s')
    (hf : rs.length + misses ≤ fuel) :
    rounds element separator least most fuel t s = (.value t',s') := by
  induction h generalizing fuel with
  | full hm =>
    cases fuel with
    | zero =>
      rw [rounds_zero,if_pos hm]
      rfl
    | succ fuel =>
      rw [rounds_succ,if_pos hm]
      rfl
  | missed hm ha =>
    obtain ⟨fuel,rfl⟩ : ∃ k, fuel = k + 1 := Nat.exists_eq_add_of_le' hf
    rw [rounds_succ,if_neg (by simp [hm]),Run.bind_of_value ha]
    rfl
  | stayed hm ha hstop hleast =>
    obtain ⟨fuel,rfl⟩ : ∃ k, fuel = k + 1 := Nat.exists_eq_add_of_le' hf
    rw [rounds_succ,if_neg (by simp [hm]),Run.bind_of_value ha]
    dsimp only
    rw [if_pos ⟨hstop,hleast⟩]
    rfl
  | @next t t' s s' s'' r rs misses hm ha hn _ ih =>
    obtain ⟨fuel,rfl⟩ : ∃ k, fuel = k + 1 := ⟨fuel - 1,by simp at hf; omega⟩
    rw [rounds_succ,if_neg (by simp [hm]),Run.bind_of_value ha]
    dsimp only
    rw [if_neg hn]
    apply ih
    rw [List.length_cons] at hf
    omega

/-- Only the last attempt can fail. -/
theorem misses_le (h : Repeats element separator least most t s rs misses t' s') : misses ≤ 1 := by
  induction h with
  | full | stayed => exact Nat.zero_le 1
  | missed => exact Nat.le_refl 1
  | next _ _ _ _ ih => exact ih

/-- What the last tally holds besides the cut comes from the rounds. -/
theorem tally (h : Repeats element separator least most t s rs misses t' s') :
    t' = { t.afterAll rs with cut := t'.cut } := by
  induction h with
  | full | missed | stayed => rfl
  | next _ _ _ _ ih => exact ih

theorem outcome {i : Int} (h : Repeats element separator least most (.start i) s rs misses t' s')
    (whole : Parser) : t'.outcome least whole i =
      if rs.length < least then .failure i whole t'.cut
      else .success (.list (rs.map Round.value)) (Round.lastStop i rs) t'.cut := by
  have ht := h.tally
  rw [Tally.afterAll_eq] at ht
  rw [ht]
  simp [Tally.outcome,Tally.start]

/-- There are no more rounds than an upper bound allows. -/
theorem length_le (h : Repeats element separator least most t s rs misses t' s') {M : Nat}
    (hM : most = some M) (ht : t.count ≤ M) : t.count + rs.length ≤ M := by
  subst hM
  induction h with
  | full | missed => exact ht
  | stayed hm =>
    simp only [Option.any_some,decide_eq_false_iff_not] at hm
    exact Nat.lt_of_not_le hm
  | next hm _ _ _ ih =>
    simp only [Option.any_some,decide_eq_false_iff_not] at hm
    have hle := ih (Nat.lt_of_not_le hm)
    rw [Tally.count_after] at hle
    rw [List.length_cons]
    omega

theorem repetition {i : Int} (h : Repeats element separator least most (.start i) s rs misses t' s')
    {text : Text} (hf : rs.length + misses ≤ roundLimit text least i) (whole : Parser) :
    repetition element separator least most whole text i s =
      (.value (t'.outcome least whole i),s') := by
  rw [repetition_eq,Run.map_apply,h.rounds hf]
  rfl

end Repeats

/-- Rounds that return have been rounds one by one. -/
theorem exists_repeats (h : rounds element separator least most fuel t s = (.value t',s')) :
    ∃ rs misses, Repeats element separator least most t s rs misses t' s' ∧
      rs.length + misses ≤ fuel := by
  induction fuel generalizing t s with
  | zero =>
    rw [rounds_zero] at h
    split at h
    · cases h
      exact ⟨[],0,.full ‹_›,Nat.le_refl 0⟩
    · cases h
  | succ fuel ih =>
    rw [rounds_succ] at h
    split at h
    · cases h
      exact ⟨[],0,.full ‹_›,Nat.zero_le _⟩
    · have hm : most.any (· ≤ t.count) = false := Bool.eq_false_iff.mpr ‹_›
      obtain ⟨a,u,ha,h⟩ := Run.bind_eq_value_iff.mp h
      cases a with
      | error cut =>
        cases h
        exact ⟨[],1,.missed hm ha,Nat.le_add_left 1 fuel⟩
      | ok r =>
        dsimp only at h
        by_cases hn : r.stop = t.stop ∧ least ≤ t.count + 1
        · rw [if_pos hn] at h
          cases h
          exact ⟨[r],0,.stayed hm ha hn.1 hn.2,Nat.le_add_left 1 fuel⟩
        · rw [if_neg hn] at h
          obtain ⟨rs,misses,hr,hf⟩ := ih h
          refine ⟨r :: rs,misses,.next hm ha hn hr,?_⟩
          rw [List.length_cons]
          omega

theorem repeats_of_repetition {whole : Parser} {text : Text} {i : Int} {o : Outcome}
    (h : repetition element separator least most whole text i s = (.value o,s')) :
    ∃ rs misses t, Repeats element separator least most (.start i) s rs misses t s' ∧
      rs.length + misses ≤ roundLimit text least i ∧ o = t.outcome least whole i := by
  rw [repetition_eq] at h
  obtain ⟨t,ht,ho⟩ := Run.map_eq_value_iff.mp h
  obtain ⟨rs,misses,hr,hf⟩ := exists_repeats ht
  exact ⟨rs,misses,t,hr,hf,ho.symm⟩

end Rounds

section Ending

variable {Inv : State → Prop} {text : Text} {i : Int} {element separator : Step}

/-- From every position from `i` on, and in every state like this, a step returns and leaves such a
state; and where it succeeds it ends neither before its start nor past the end of the text, unless
it starts there. -/
def Returns (Inv : State → Prop) (text : Text) (i : Int) (step : Step) : Prop :=
  ∀ j ≥ i, ∀ s, Inv s → ∃ o s', step j s = (.value o,s') ∧ Inv s' ∧
    (o.isSuccess = true → j ≤ o.index ∧ o.index ≤ max j text.length)

theorem gap_returns (hs : Returns Inv text i separator) {t : Tally} (ht : i ≤ t.stop) {s : State}
    (h : Inv s) : ∃ o s', gap separator t s = (.value o,s') ∧ Inv s' ∧
      (o.isSuccess = true → t.stop ≤ o.index ∧ o.index ≤ max t.stop text.length) := by
  unfold gap
  split
  · exact ⟨_,s,rfl,h,fun _ => ⟨Int.le_refl _,Int.le_max_left _ _⟩⟩
  · exact hs t.stop ht s h

theorem attempt_returns (he : Returns Inv text i element) (hs : Returns Inv text i separator)
    {t : Tally} (ht : i ≤ t.stop) {s : State} (h : Inv s) :
    ∃ a s', attempt element separator t s = (.value a,s') ∧ Inv s' ∧
      ∀ r, a = .ok r → t.stop ≤ r.stop ∧ r.stop ≤ max t.stop text.length := by
  obtain ⟨o,u,hg,hu,ho⟩ := gap_returns hs ht h
  unfold attempt
  rw [Run.bind_of_value hg]
  cases o with
  | failure j cause c => exact ⟨_,u,rfl,hu,nofun⟩
  | success v start c =>
    obtain ⟨hstart,hstart'⟩ : t.stop ≤ start ∧ start ≤ max t.stop text.length := ho rfl
    obtain ⟨o,u',hr,hu',ho⟩ := he start (Int.le_trans ht hstart) u hu
    dsimp only
    rw [Run.bind_of_value hr]
    cases o with
    | failure j cause d => exact ⟨_,u',rfl,hu',nofun⟩
    | success v stop d =>
      obtain ⟨hstop,hstop'⟩ : start ≤ stop ∧ stop ≤ max start text.length := ho rfl
      refine ⟨_,u',rfl,hu',?_⟩
      rintro _ ⟨⟩
      dsimp only
      omega

/-- How many rounds can follow: those that are missing, or one that stays where it is, and one for
each place that is left in the text. -/
def roundsAhead (text : Text) (least : Nat) (t : Tally) : Nat :=
  max (least - t.count) 1 + (text.length - t.stop).toNat

/-- A round after which the rounds go on leaves fewer of them. -/
theorem roundsAhead_after {t : Tally} {r : Round} {least : Nat} (hle : t.stop ≤ r.stop)
    (hmax : r.stop ≤ max t.stop text.length) (hn : ¬(r.stop = t.stop ∧ least ≤ t.count + 1)) :
    roundsAhead text least (t.after r) < roundsAhead text least t := by
  simp only [roundsAhead,Tally.count_after,Tally.stop_after]
  by_cases hstay : r.stop = t.stop
  · -- The round stayed where it was, so some of the least are still missing.
    have hfew : t.count + 1 < least := by
      by_contra hmany
      exact hn ⟨hstay,by omega⟩
    omega
  · omega

theorem repeats_of_returns (he : Returns Inv text i element) (hs : Returns Inv text i separator)
    (least : Nat) (most : Option Nat) {t : Tally} (ht : i ≤ t.stop) {s : State} (h : Inv s) :
    ∃ rs misses t' s', Repeats element separator least most t s rs misses t' s' ∧ Inv s' ∧
      rs.length ≤ roundsAhead text least t := by
  induction hk : roundsAhead text least t using Nat.strongRecOn generalizing t s with
  | ind k ih =>
    by_cases hm : most.any (· ≤ t.count) = true
    · exact ⟨[],0,t,s,.full hm,h,Nat.zero_le _⟩
    · have hm : most.any (· ≤ t.count) = false := Bool.eq_false_iff.mpr hm
      obtain ⟨a,u,ha,hu,hr⟩ := attempt_returns he hs ht h
      cases a with
      | error cut => exact ⟨[],1,_,u,.missed hm ha,hu,Nat.zero_le _⟩
      | ok r =>
        obtain ⟨hle,hmax⟩ := hr r rfl
        by_cases hn : r.stop = t.stop ∧ least ≤ t.count + 1
        · refine ⟨[r],0,_,u,.stayed hm ha hn.1 hn.2,hu,?_⟩
          rw [List.length_singleton,← hk,roundsAhead]
          omega
        · have hfewer := roundsAhead_after hle hmax hn
          obtain ⟨rs,misses,t',s',hrs,hs',hlen⟩ :=
            ih _ (hk ▸ hfewer) (Int.le_trans ht hle) hu rfl
          refine ⟨r :: rs,misses,t',s',.next hm ha hn hrs,hs',?_⟩
          rw [List.length_cons]
          omega

/-- A repetition ends.  As many rounds succeed in it as are needed for the least count, or one, and
one for each place that is left in the text, and no more than an upper bound allows; after them at
most one attempt fails; and as many rounds granted are enough. -/
theorem repetition_ends (he : Returns Inv text i element) (hs : Returns Inv text i separator)
    (least : Nat) (most : Option Nat) (whole : Parser) {s : State} (h : Inv s) :
    ∃ rs misses t s', Repeats element separator least most (.start i) s rs misses t s' ∧
      rs.length ≤ max least 1 + (text.length - i).toNat ∧ (∀ M, most = some M → rs.length ≤ M) ∧
      misses ≤ 1 ∧
      (∀ fuel ≥ rs.length + misses,
        rounds element separator least most fuel (.start i) s = (.value t,s')) ∧
      repetition element separator least most whole text i s =
        (.value (t.outcome least whole i),s') ∧ Inv s' := by
  obtain ⟨rs,misses,t,s',hr,hs',hlen⟩ :=
    repeats_of_returns he hs least most (t := .start i) (Int.le_refl i) h
  have hlen : rs.length ≤ max least 1 + (text.length - i).toNat := hlen
  have hmisses := hr.misses_le
  have hfuel : rs.length + misses ≤ roundLimit text least i := by
    unfold roundLimit
    omega
  refine ⟨rs,misses,t,s',hr,hlen,fun M hM => ?_,hmisses,fun fuel hf => hr.rounds hf,
    hr.repetition hfuel whole,hs'⟩
  simpa [Tally.start] using hr.length_le hM (Nat.zero_le M)

theorem run_terminal (w : World) (c : Context) (n : Nat) (id : Ident) (k : Terminal) (i : Int) :
    run w c (n + 1) (.terminal id k) i =
      match k.scan c.text i with
      | .ok (some j) => pure (.success .none j false)
      | .ok none => pure (.failure i (.terminal id k) false)
      | .error fault => Abrupt.raise fault := rfl

/-- A terminal that raises nothing returns, if it starts no further back than the first
character. -/
theorem terminal_returns {w : World} {c : Context} {n : Nat} {id : Ident} {k : Terminal}
    (hi : -c.text.length ≤ i) (hk : k.offersTuple = false) (hr : ∀ fault, ¬k.Raises fault) :
    Returns (fun _ => True) c.text i (run w c (n + 1) (.terminal id k)) := by
  intro j hj s _
  rw [run_terminal]
  rcases hscan : k.scan c.text j with fault | _ | stop
  · exact absurd (Terminal.raises_of_scan (by omega) hscan) (hr fault)
  · exact ⟨_,s,rfl,trivial,nofun⟩
  · have hreach := Terminal.reaches_of_scan (fun _ : True => hk) hscan
    exact ⟨_,s,rfl,trivial,fun _ => ⟨hreach.onward,hreach.within trivial⟩⟩

/-- Three runs are wanted of which the first takes the whole text. -/
theorem repetition_ends_at_least_three :
    let w : World := ⟨fun _ _ => .error .notReady,fun _ => .recording none,fun _ => 0⟩
    let c : Context := ⟨"aa".toList,none,none⟩
    let letters : Parser := .terminal (.named "letters") (.runOf "a".toList 0)
    let nothing : Parser := .terminal (.named "nothing") .pass
    ∃ rs misses t s', Repeats (run w c 1 letters) (run w c 1 nothing) 3 (some 4) (.start 0) {} rs
        misses t s' ∧
      rs.length ≤ 5 ∧ rs.length ≤ 4 ∧ misses ≤ 1 ∧
      run w c 2 (.rep (.named "runs") letters 3 (some 4) nothing) 0 {} =
        (.value (.success (.list [.none,.none,.none]) 2 false),{}) := by
  intro w c letters nothing
  have hletters : Returns (fun _ => True) c.text 0 (run w c 1 letters) :=
    terminal_returns (by decide) rfl fun _ h => h
  have hnothing : Returns (fun _ => True) c.text 0 (run w c 1 nothing) :=
    terminal_returns (by decide) rfl fun _ h => h
  obtain ⟨rs,misses,t,s',hr,hlen,hmost,hmisses,-⟩ :=
    repetition_ends hletters hnothing 3 (some 4) letters (s := {}) trivial
  exact ⟨rs,misses,t,s',hr,hlen,hmost 4 rfl,hmisses,rfl⟩

end Ending

section Bounds

variable {element separator : Step} {least misses M : Nat} {t t' : Tally} {s s' : State}
  {rs : List Round}

/-- An upper bound keeps the first rounds; if it leaves any out, nothing is tried after them. -/
theorem Repeats.take (h : Repeats element separator least none t s rs misses t' s')
    (hM : t.count ≤ M) : ∃ misses' s'', misses' ≤ misses ∧
      Repeats element separator least (some M) t s (rs.take (M - t.count)) misses'
        (if M ≤ t.count + rs.length then t.afterAll (rs.take (M - t.count)) else t') s'' := by
  induction h with
  | full hm => cases hm
  | @missed t s s' cut _ ha =>
    rw [List.length_nil,Nat.add_zero,List.take_nil]
    by_cases hfull : M ≤ t.count
    · refine ⟨0,s,Nat.zero_le 1,?_⟩
      rw [if_pos hfull]
      exact .full (by simpa using hfull)
    · refine ⟨1,s',Nat.le_refl 1,?_⟩
      rw [if_neg hfull]
      exact .missed (by simpa using hfull) ha
  | @stayed t s s' r _ ha hstop hleast =>
    by_cases hfull : M ≤ t.count
    · refine ⟨0,s,Nat.le_refl 0,?_⟩
      rw [if_pos (by omega),Nat.sub_eq_zero_of_le hfull,List.take_zero]
      exact .full (by simpa using hfull)
    · refine ⟨0,s',Nat.le_refl 0,?_⟩
      have hkeep : [r].take (M - t.count) = [r] := List.take_of_length_le (by simp; omega)
      rw [hkeep,Tally.afterAll_cons,Tally.afterAll_nil,ite_self]
      exact .stayed (by simpa using hfull) ha hstop hleast
  | @next t t' s s' s'' r rs misses _ ha hn _ ih =>
    by_cases hfull : M ≤ t.count
    · refine ⟨0,s,Nat.zero_le _,?_⟩
      rw [if_pos (by omega),Nat.sub_eq_zero_of_le hfull,List.take_zero]
      exact .full (by simpa using hfull)
    · obtain ⟨misses',u,hmisses,hr⟩ := ih (by rw [Tally.count_after]; omega)
      refine ⟨misses',u,hmisses,?_⟩
      have hcount : M - t.count = (M - (t.after r).count) + 1 := by
        rw [Tally.count_after]
        omega
      have hlength : t.count + (r :: rs).length = (t.after r).count + rs.length := by
        rw [Tally.count_after,List.length_cons]
        omega
      rw [hcount,List.take_succ_cons,hlength,Tally.afterAll_cons]
      exact .next (by simpa using hfull) ha hn hr

/-- If no round stays where it is, a lower bound does not matter for the rounds. -/
theorem Repeats.of_moving {Inv : State → Prop} {i : Int} {least' : Nat} {most : Option Nat}
    (h : Repeats element separator least most t s rs misses t' s')
    (hmove : ∀ t s r s', i ≤ t.stop → Inv s →
      attempt element separator t s = (.value (.ok r),s') → t.stop < r.stop ∧ Inv s')
    (ht : i ≤ t.stop) (hs : Inv s) :
    Repeats element separator least' most t s rs misses t' s' := by
  induction h with
  | full hm => exact .full hm
  | missed hm ha => exact .missed hm ha
  | stayed hm ha hstop =>
    have hpast := (hmove _ _ _ _ ht hs ha).1
    omega
  | next hm ha _ _ ih =>
    obtain ⟨hpast,hs'⟩ := hmove _ _ _ _ ht hs ha
    exact .next hm ha (by omega) (ih (by rw [Tally.stop_after]; omega) hs')

variable {w : World} {c : Context} {n : Nat} {p q : Parser} {i : Int}

theorem run_gives (w : World) (c : Context) (n : Nat) (p : Parser) (i : Int) :
    Run.Gives w (fun _ => True) (run w c n p i) (p.Lands (fun _ => True) c.text False i) :=
  run_lands (fun _ _ _ _ => trivial) (fun _ _ _ _ _ _ => trivial) n (fun h => h.elim)
    ⟨fun _ _ => trivial,fun _ _ _ => trivial⟩

/-- A parser does not go back in the text. -/
theorem run_onward {s : State} (hs : s.memory.Supplied w) {o : Outcome} {s' : State}
    (h : run w c n p i s = (.value o,s')) : i ≤ o.index := by
  have ha := (run_gives w c n p i s hs).2
  rw [h] at ha
  have hreach : c.text.Reaches False i o.index := ha.reaches
  exact hreach.onward

/-- A round moves on if its element does. -/
theorem attempt_moves (Inv : State → Prop) (hinv : ∀ s, Inv s → s.memory.Supplied w)
    (hkeep : ∀ x ∈ [p,q], ∀ j s, Inv s → Inv (run w c n x j s).2)
    (hmove : ∀ j ≥ i, ∀ s, Inv s → ∀ v k cut s',
      run w c n p j s = (.value (.success v k cut),s') → k ≠ j)
    (t : Tally) (s : State) (r : Round) (s' : State) (ht : i ≤ t.stop) (hs : Inv s)
    (h : attempt (run w c n p) (run w c n q) t s = (.value (.ok r),s')) :
    t.stop < r.stop ∧ Inv s' := by
  obtain ⟨o,u,hg,h⟩ := Run.bind_eq_value_iff.mp h
  cases o with
  | failure j cause d => cases h
  | success v start d =>
    obtain ⟨o,u',he,h⟩ := Run.bind_eq_value_iff.mp h
    cases o with
    | failure j cause d => cases h
    | success v stop d =>
      cases h
      have hgap : t.stop ≤ start ∧ Inv u := by
        unfold gap at hg
        split at hg
        · cases hg
          exact ⟨Int.le_refl _,hs⟩
        · have hu := hkeep q (by simp) t.stop s hs
          rw [hg] at hu
          exact ⟨run_onward (hinv s hs) hg,hu⟩
      have hne := hmove start (by omega) u hgap.2 _ _ _ _ he
      have hle : start ≤ stop := run_onward (hinv u hgap.2) he
      have hu' := hkeep p (by simp) start u hgap.2
      rw [he] at hu'
      dsimp only
      exact ⟨by omega,hu'⟩

/-- The bounds of a repetition are a cap and a threshold.  With an upper bound it succeeds exactly
when it does without one, and gives as many of the values as the bound allows and ends where the
last of them does.  With a lower bound, if the element never succeeds where it starts, it gives the
same as without one if that makes enough values, and else fails where it starts with the same
cut. -/
theorem run_rep_bounds (p q : Parser) (i : Int) {s : State} (hs : s.memory.Supplied w) :
    (∀ id id' least most o s', least.toNat ≤ most.toNat →
      run w c (n + 1) (.rep id p least none q) i s = (.value o,s') →
      ∃ rs misses t o' s'',
        Repeats (run w c n p) (run w c n q) least.toNat none (.start i) s rs misses t s' ∧
        run w c (n + 1) (.rep id' p least (some most) q) i s = (.value o',s'') ∧
        (o'.isSuccess = true ↔ o.isSuccess = true) ∧
        (∀ v j cut, o = .success v j cut →
          v = .list (rs.map Round.value) ∧ j = Round.lastStop i rs) ∧
        (∀ v j cut, o' = .success v j cut →
          v = .list ((rs.map Round.value).take most.toNat) ∧
          j = Round.lastStop i (rs.take most.toNat))) ∧
    (∀ Inv : State → Prop, Inv s → (∀ x ∈ [p,q], ∀ j s, Inv s → Inv (run w c n x j s).2) →
      (∀ j ≥ i, ∀ s, Inv s → ∀ v k cut s',
        run w c n p j s = (.value (.success v k cut),s') → k ≠ j) →
      ∀ id id' least o s', run w c (n + 1) (.rep id p 0 none q) i s = (.value o,s') →
      ∃ vs j cut, o = .success (.list vs) j cut ∧
        run w c (n + 1) (.rep id' p least none q) i s =
          (.value (if least.toNat ≤ vs.length then o
            else .failure i (.rep id' p least none q) cut),s')) := by
  refine ⟨fun id id' least most o s' hle h => ?_,fun Inv hi hkeep hmove id id' least o s' h => ?_⟩
  · obtain ⟨rs,misses,t,hr,hf,rfl⟩ := repeats_of_repetition h
    obtain ⟨misses',s'',hmisses,hr'⟩ := hr.take (M := most.toNat) (Nat.zero_le _)
    have hkept : rs.take (most.toNat - (Tally.start i).count) = rs.take most.toNat := rfl
    rw [hkept] at hr'
    have hlength := List.length_take (i := most.toNat) (l := rs)
    have hf' : (rs.take most.toNat).length + misses' ≤ roundLimit c.text least.toNat i := by omega
    refine ⟨rs,misses,t,_,s'',hr,hr'.repetition hf' _,?_⟩
    rw [hr'.outcome,hr.outcome]
    by_cases hfew : rs.length < least.toNat
    · rw [if_pos hfew,if_pos (by omega)]
      exact ⟨Iff.rfl,nofun,nofun⟩
    · rw [if_neg hfew,if_neg (by omega),← List.map_take]
      refine ⟨Iff.rfl,?_,?_⟩
      · rintro _ _ _ ⟨⟩
        exact ⟨rfl,rfl⟩
      · rintro _ _ _ ⟨⟩
        exact ⟨rfl,rfl⟩
  · obtain ⟨rs,misses,t,hr,hf,rfl⟩ := repeats_of_repetition h
    -- Suppliers' bodies stay remembered whatever else is known of the states.
    have hmoves := attempt_moves (fun s => Inv s ∧ s.memory.Supplied w)
      (fun _ h => h.2) (fun x hx j s h => ⟨hkeep x hx j s h.1,(run_gives w c n x j s h.2).1⟩)
      fun j hj s h => hmove j hj s h.1
    have hr' : Repeats (run w c n p) (run w c n q) least.toNat none (.start i) s rs misses t s' :=
      hr.of_moving hmoves (Int.le_refl i) ⟨hi,hs⟩
    have hf' : rs.length + misses ≤ roundLimit c.text least.toNat i := by
      have hzero : Quantity.toNat 0 = 0 := rfl
      rw [hzero] at hf
      simp only [roundLimit] at hf ⊢
      omega
    have hall := hr.outcome (.rep id p 0 none q)
    rw [if_neg (show ¬rs.length < Quantity.toNat 0 from Nat.not_lt_zero _)] at hall
    refine ⟨_,_,_,hall,(hr'.repetition hf' _).trans ?_⟩
    rw [hr'.outcome,hall,List.length_map]
    by_cases hfew : rs.length < least.toNat
    · rw [if_pos hfew,if_neg (by omega)]
    · rw [if_neg hfew,if_pos (by omega)]

/-- Of three letters with commas between them two are kept, and four are too many to ask for. -/
theorem run_rep_bounds_of_three :
    let w : World := ⟨fun _ _ => .error .notReady,fun _ => .recording none,fun _ => 0⟩
    let c : Context := ⟨"a,a,a,".toList,none,none⟩
    let letter : Parser := .capture (.terminal (.named "letter") (.char 'a'))
    let comma : Parser := .terminal (.named "comma") (.char ',')
    let all : Parser := .rep (.named "all") letter 0 none comma
    let two : Parser := .rep (.named "two") letter 0 (some 2) comma
    let four : Parser := .rep (.named "four") letter 4 none comma
    let a : Value := .str "a".toList
    run w c 3 all 0 {} = (.value (.success (.list [a,a,a]) 5 false),{}) ∧
      (∃ o s', run w c 3 two 0 {} = (.value o,s') ∧ o = .success (.list [a,a]) 3 false ∧
        o.isSuccess = true) ∧
      run w c 3 four 0 {} = (.value (.failure 0 four false),{}) := by
  intro w c letter comma all two four a
  have hall : run w c 3 all 0 {} = (.value (.success (.list [a,a,a]) 5 false),{}) := rfl
  obtain ⟨hcap,hleast⟩ := run_rep_bounds (w := w) (c := c) (n := 2) letter comma 0 (s := {})
    (Memory.supplied_new w)
  obtain ⟨rs,misses,t,o,s',-,ho,hiff,-⟩ := hcap _ (.named "two") 0 2 _ _ (by decide) hall
  have hmove : ∀ j ≥ 0, ∀ s : State, True → ∀ v k cut s',
      run w c 2 letter j s = (.value (.success v k cut),s') → k ≠ j := by
    intro j _ s _ v k cut s' h
    obtain ⟨o,u,ho,h⟩ := Run.bind_eq_value_iff.mp h
    rw [run_terminal] at ho
    rcases hscan : Terminal.scan c.text j (.char 'a') with fault | _ | m
    · rw [hscan] at ho
      cases ho
    · rw [hscan] at ho
      cases ho
      cases h
    · rw [hscan] at ho
      cases ho
      cases h
      have hm : k = j + 1 := (Terminal.of_scanOne hscan).1
      omega
  obtain ⟨vs,j,cut,hvs,hfour⟩ := hleast (fun _ => True) trivial (fun _ _ _ _ _ => trivial) hmove _
    (.named "four") 4 _ _ hall
  cases hvs
  refine ⟨hall,⟨o,s',ho,?_,hiff.mpr rfl⟩,hfour⟩
  have htwo : run w c 3 two 0 {} = (.value (.success (.list [a,a]) 3 false),{}) := rfl
  cases ho.symm.trans htwo
  rfl

end Bounds

end Parsing
end Peg
