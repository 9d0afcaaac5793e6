import Mathlib.Data.List.Forall2
import Peg.Outline
import Peg.Proofs.Grammar

/-! Questions whether a parser is a unit parser.
While rules are being answered an answer may rely on guesses about them.  An answer is right up to
the rules that it relies on, and an answer that is kept relies on none.  Main statement: a question
leaves only truth remembered, and it is answered when the nesting is deep enough. -/
namespace Peg

/-- What an answer has to be like as a value, as a fault, and when there is none. -/
def Answer.Meets {α : Type} (value : α → Prop) (fault : Fault → Prop) (missing : Prop) :
    Answer α → Prop
  | .value a => value a
  | .raised f => fault f
  | .exhausted => missing

/-- A supplier refuses its first calls, so many of them, and gives a parser at the next one. -/
structure World.Gives (w : World) (r : RuleId) (refusals : Nat) (p : Parser) : Prop where
  refuses : ∀ k < refusals, ∃ fault, w.supply r k = .error fault
  gives : w.supply r refusals = .ok p

namespace Parser

theorem size_pos (p : Parser) : 0 < p.size := by
  cases p <;> simp [size]

theorem size_le_sizes {p : Parser} {ps : List Parser} (h : p ∈ ps) : p.size ≤ sizes ps := by
  induction ps with
  | nil => cases h
  | cons q ps ih =>
    rw [sizes]
    rcases List.mem_cons.mp h with rfl | h
    · omega
    · have := ih h
      omega

end Parser

namespace Memory

/-- The rules whose guesses the innermost answer may rely on. -/
def Relied : List Frame → RuleId → Prop
  | [], _ => False
  | f :: fs, r => ∃ place, placeOf r (f :: fs) = some place ∧ f.low ≤ place

/-- The same rules are being answered, and the innermost answer relies on as much or more. -/
def Deeper (fs fs' : List Frame) : Prop := ∃ low, fs' = relyOn low fs

theorem relyOn_relyOn (low low' : Nat) (fs : List Frame) :
    relyOn low' (relyOn low fs) = relyOn (min low low') fs := by
  cases fs with
  | nil => rfl
  | cons f fs => simp [relyOn,Nat.min_assoc]

@[simp] theorem placeOf_relyOn (low : Nat) (r : RuleId) (fs : List Frame) :
    placeOf r (relyOn low fs) = placeOf r fs := by
  cases fs <;> rfl

theorem placeOf_lt {r : RuleId} {fs : List Frame} {place : Nat} (h : placeOf r fs = some place) :
    place < fs.length := by
  induction fs with
  | nil => cases h
  | cons f fs ih =>
    unfold placeOf at h
    split at h
    · cases h
      simp
    · have := ih h
      simp only [List.length_cons]
      omega

theorem Deeper.refl (fs : List Frame) : Deeper fs fs := by
  cases fs with
  | nil => exact ⟨0,rfl⟩
  | cons f fs => exact ⟨f.low,by simp [relyOn]⟩

theorem Deeper.trans {fs fs' fs'' : List Frame} (h : Deeper fs fs') (h' : Deeper fs' fs'') :
    Deeper fs fs'' := by
  obtain ⟨low,rfl⟩ := h
  obtain ⟨low',rfl⟩ := h'
  exact ⟨min low low',relyOn_relyOn low low' fs⟩

theorem Deeper.placeOf {fs fs' : List Frame} (h : Deeper fs fs') (r : RuleId) :
    placeOf r fs' = placeOf r fs := by
  obtain ⟨low,rfl⟩ := h
  exact placeOf_relyOn low r fs

theorem Relied.deeper {fs fs' : List Frame} (h : Deeper fs fs') {r : RuleId} (hr : Relied fs r) :
    Relied fs' r := by
  obtain ⟨low,rfl⟩ := h
  cases fs with
  | nil => exact hr
  | cons f fs =>
    obtain ⟨place,hp,hl⟩ := hr
    exact ⟨place,hp,Nat.le_trans (Nat.min_le_left _ _) hl⟩

/-- A guess is relied on once that is noted. -/
theorem relied_of_placeOf {r : RuleId} {fs : List Frame} {place : Nat}
    (h : placeOf r fs = some place) : Relied (relyOn place fs) r := by
  cases fs with
  | nil => cases h
  | cons f fs => exact ⟨place,h,Nat.min_le_right _ _⟩

/-- What an answer relied on besides its own rule, the next outer one relies on as well. -/
theorem Relied.outer {f : Frame} {fs : List Frame} {r : RuleId} (h : Relied (f :: fs) r) :
    Relied (relyOn f.low fs) r ∨ r = f.rule := by
  obtain ⟨place,hp,hl⟩ := h
  by_cases hr : f.rule = r
  · exact Or.inr hr.symm
  · rw [Memory.placeOf,if_neg hr] at hp
    cases fs with
    | nil => cases hp
    | cons g fs => exact Or.inl ⟨place,hp,Nat.le_trans (Nat.min_le_right _ _) hl⟩

/-- An answer that relied on no enclosing rule relied on its own only. -/
theorem Relied.own {f : Frame} {fs : List Frame} {r : RuleId} (h : Relied (f :: fs) r)
    (hl : fs.length ≤ f.low) : r = f.rule := by
  obtain ⟨place,hp,hle⟩ := h
  by_cases hr : f.rule = r
  · exact hr.symm
  · rw [Memory.placeOf,if_neg hr] at hp
    have := placeOf_lt hp
    omega

end Memory

namespace Grammar

variable {G : Grammar} {α β : Type}

/-- An answer about a parser that is right, if those it relies on are unit parsers. -/
def Fits (G : Grammar) (fs : List Frame) (p : Parser) : Bool → Prop
  | true => ¬ G.BearsWithout (Memory.Relied fs) p
  | false => G.Bears p

theorem Fits.deeper {fs fs' : List Frame} (h : Memory.Deeper fs fs') {p : Parser} {u : Bool}
    (hu : G.Fits fs p u) : G.Fits fs' p u := by
  cases u with
  | false => exact hu
  | true => exact fun hb => hu (hb.mono fun r => Memory.Relied.deeper h)

theorem fits_isUnit (fs : List Frame) (p : Parser) : G.Fits fs p (G.isUnit p) := by
  cases hu : G.isUnit p with
  | false => exact isUnit_eq_false_iff.mp hu
  | true => exact fun hb => isUnit_eq_true_iff.mp hu hb.bears

theorem Fits.exact {p : Parser} {u : Bool} (h : G.Fits [] p u) : u = G.isUnit p := by
  cases u with
  | false => exact (isUnit_eq_false_iff.mpr h).symm
  | true =>
    refine (isUnit_eq_true_iff.mpr fun hb => h ?_).symm
    exact bearsWithout_none_iff.mpr hb

/-- An answer about a parser from one about all that it hands on. -/
theorem Fits.of_handsOn {fs : List Frame} {p : Parser} {u : Bool} (hm : p.makesValue = false)
    (ht : u = true → ∀ q ∈ G.handsOn p, G.Fits fs q true)
    (hf : u = false → ∃ q ∈ G.handsOn p, G.Bears q) : G.Fits fs p u := by
  cases u with
  | false => exact bears_iff.mpr (Or.inr (hf rfl))
  | true =>
    intro hb
    rcases bearsWithout_iff.mp hb with hv | ⟨-,q,hq,hb⟩
    · rw [hm] at hv
      cases hv
    · exact ht rfl q hq hb

/-- The answer about a rule from the answer about its body: it relies on what that relied on, but
for the rule itself. -/
theorem Fits.rule {f : Frame} {fs : List Frame} {u : Bool} {name : Text}
    (h : G.Fits (f :: fs) (G.body f.rule) u) :
    G.Fits (Memory.relyOn f.low fs) (.rule f.rule name) u := by
  cases u with
  | false => exact Bears.rule h
  | true => exact fun hb => h (hb.body.mono fun r => Memory.Relied.outer)

/-- An answer that relied on no enclosing rule is exact. -/
theorem Fits.rule_exact {f : Frame} {fs : List Frame} {u : Bool}
    (h : G.Fits (f :: fs) (G.body f.rule) u) (hl : fs.length ≤ f.low) :
    u = G.isUnit (G.body f.rule) := by
  cases u with
  | false => exact (isUnit_eq_false_iff.mpr h).symm
  | true =>
    refine (isUnit_eq_true_iff.mpr fun hb => h ?_).symm
    rcases (bearsWithout_none_iff.mpr hb).lastVisit f.rule with hb | hb
    all_goals exact hb.mono fun r hr => Or.inr (Memory.Relied.own hr hl)

/-- What is known of a rule is true. -/
structure SoundCell (G : Grammar) (refusals : RuleId → Nat) (r : RuleId) (c : RuleCell) : Prop where
  body : ∀ p, c.body = some p → p = G.body r
  calls : c.body = none → c.calls ≤ refusals r
  unit : ∀ u, c.unit = some u → u = G.isUnit (G.body r)

/-- What is remembered of the rules and sequences of a grammar is true. -/
structure Sound (G : Grammar) (refusals : RuleId → Nat) (m : Memory) : Prop where
  cell : ∀ r ∈ G.rules, G.SoundCell refusals r (m.cell r)
  shape : ∀ id parts, G.parts id = some parts → ∀ us, m.shape id = some us →
    us = parts.map G.isUnit

theorem sound_new (G : Grammar) (refusals : RuleId → Nat) : G.Sound refusals {} where
  cell _ _ := ⟨by simp,by simp,by simp⟩
  shape := by simp

/-- What rules are being answered is no matter of truth. -/
theorem Sound.resolving {refusals : RuleId → Nat} {m : Memory} (h : G.Sound refusals m)
    (fs : List Frame) : G.Sound refusals { m with resolving := fs } :=
  ⟨h.cell,h.shape⟩

theorem Sound.setCell {refusals : RuleId → Nat} {m : Memory} (h : G.Sound refusals m) {r : RuleId}
    {c : RuleCell} (hc : G.SoundCell refusals r c) : G.Sound refusals (m.setCell r c) where
  cell s hs := by
    rw [Memory.cell_setCell]
    split
    · rename_i hsr
      subst hsr
      exact hc
    · exact h.cell s hs
  shape := h.shape

theorem Sound.setShape {refusals : RuleId → Nat} {m : Memory} (h : G.Sound refusals m) {id : Ident}
    {parts : List Parser} (hp : G.parts id = some parts) :
    G.Sound refusals (m.setShape id (parts.map G.isUnit)) where
  cell := h.cell
  shape j ps hj us hus := by
    rw [Memory.shape_setShape] at hus
    split at hus
    · rename_i hji
      subst hji
      rw [hp] at hj
      cases hj
      cases hus
      rfl
    · exact h.shape j ps hj us hus

/-- A fault of a supplier that refuses. -/
def Refused (G : Grammar) (w : World) (refusals : RuleId → Nat) (fault : Fault) : Prop :=
  ∃ r ∈ G.rules, ∃ k < refusals r, w.supply r k = .error fault

/-- A question that can be asked while some rules are being answered: it leaves only truth
remembered and the same rules being answered, and what it answers is as said.  It raises only what
a supplier raises, and it is answered when the nesting is deep enough. -/
def Asks (G : Grammar) (w : World) (refusals : RuleId → Nat) (fs : List Frame) (enough : Prop)
    (Q : List Frame → α → Prop) (x : Run α) : Prop :=
  ∀ s, G.Sound refusals s.memory → Memory.Deeper fs s.memory.resolving →
    G.Sound refusals (x s).2.memory ∧
      Memory.Deeper s.memory.resolving (x s).2.memory.resolving ∧
      (x s).1.Meets (Q (x s).2.memory.resolving) (G.Refused w refusals) (¬ enough)

variable {w : World} {refusals : RuleId → Nat} {fs : List Frame} {enough : Prop}

theorem Asks.imp {Q Q' : List Frame → α → Prop} {enough' : Prop} {x : Run α}
    (h : G.Asks w refusals fs enough Q x) (he : enough' → enough)
    (hQ : ∀ fs' a, Memory.Deeper fs fs' → Q fs' a → Q' fs' a) :
    G.Asks w refusals fs enough' Q' x := by
  intro s hs hd
  obtain ⟨hs',hd',ha⟩ := h s hs hd
  refine ⟨hs',hd',?_⟩
  cases hx : (x s).1 with
  | value a =>
    rw [hx] at ha
    exact hQ _ a (hd.trans hd') ha
  | raised fault =>
    rw [hx] at ha
    exact ha
  | exhausted =>
    rw [hx] at ha
    exact fun h => ha (he h)

theorem Asks.deeper {Q : List Frame → α → Prop} {x : Run α} (h : G.Asks w refusals fs enough Q x)
    {fs' : List Frame} (hd : Memory.Deeper fs fs') : G.Asks w refusals fs' enough Q x :=
  fun s hs hs' => h s hs (hd.trans hs')

theorem Asks.done {Q : List Frame → α → Prop} {a : α}
    (h : ∀ fs', Memory.Deeper fs fs' → Q fs' a) : G.Asks w refusals fs enough Q (pure a) :=
  fun _ hs hd => ⟨hs,.refl _,h _ hd⟩

theorem Asks.bind {Q : List Frame → α → Prop} {Q' : List Frame → β → Prop} {x : Run α}
    {f : α → Run β} (hx : G.Asks w refusals fs enough Q x)
    (hf : ∀ a fs', Memory.Deeper fs fs' → Q fs' a → G.Asks w refusals fs' enough Q' (f a)) :
    G.Asks w refusals fs enough Q' (x >>= f) := by
  intro s hs hd
  obtain ⟨hs',hd',ha⟩ := hx s hs hd
  rw [Run.bind_apply]
  rcases h : x s with ⟨a | fault | _,u⟩
  · rw [h] at hs' hd' ha
    obtain ⟨hs'',hd'',hb⟩ := hf a _ (hd.trans hd') ha u hs' (.refl _)
    exact ⟨hs'',hd'.trans hd'',hb⟩
  · rw [h] at hs' hd' ha
    exact ⟨hs',hd',ha⟩
  · rw [h] at hs' hd' ha
    exact ⟨hs',hd',ha⟩

/-- Whether all parts are unit parsers, from the answers for each. -/
theorem eachUnit_asks {unit : Parser → Run Bool} {ps : List Parser}
    (h : ∀ p ∈ ps, G.Asks w refusals fs enough (fun fs u => G.Fits fs p u) (unit p)) :
    G.Asks w refusals fs enough (fun fs us => List.Forall₂ (G.Fits fs) ps us)
      (Rules.eachUnit unit ps) := by
  induction ps generalizing fs with
  | nil => exact .done fun _ _ => .nil
  | cons p ps ih =>
    refine .bind (h p (by simp)) fun u fs' hd hu => ?_
    refine .bind (ih fun q hq => (h q (by simp [hq])).deeper hd) fun us fs'' hd' hus => ?_
    exact .done fun fs''' hd'' =>
      .cons ((hu.deeper hd').deeper hd'') (hus.imp fun _ _ hf => hf.deeper hd'')

theorem allUnit_asks {unit : Parser → Run Bool} {ps : List Parser}
    (h : ∀ p ∈ ps, G.Asks w refusals fs enough (fun fs u => G.Fits fs p u) (unit p)) :
    G.Asks w refusals fs enough
      (fun fs u => (u = true → ∀ p ∈ ps, G.Fits fs p true) ∧ (u = false → ∃ p ∈ ps, G.Bears p))
      (Rules.allUnit unit ps) := by
  induction ps generalizing fs with
  | nil => exact .done fun _ _ => ⟨by simp,by simp⟩
  | cons p ps ih =>
    refine .bind (h p (by simp)) fun u fs' hd hu => ?_
    cases u with
    | false => exact .done fun _ _ => ⟨by simp,fun _ => ⟨p,by simp,hu⟩⟩
    | true =>
      refine (ih fun q hq => (h q (by simp [hq])).deeper hd).imp id ?_
      rintro fs'' v hd' ⟨ht,hf⟩
      refine ⟨fun hv q hq => ?_,fun hv => ?_⟩
      · rcases List.mem_cons.mp hq with rfl | hq
        · exact hu.deeper hd'
        · exact ht hv q hq
      · obtain ⟨q,hq,hb⟩ := hf hv
        exact ⟨q,by simp [hq],hb⟩

/-- Answers that rely on nothing are the truth. -/
theorem forall₂_exact {ps : List Parser} {us : List Bool} (h : List.Forall₂ (G.Fits []) ps us) :
    us = ps.map G.isUnit := by
  induction h with
  | nil => rfl
  | cons hu _ ih => rw [hu.exact,ih,List.map_cons]

theorem forall₂_isUnit (fs : List Frame) (ps : List Parser) :
    List.Forall₂ (G.Fits fs) ps (ps.map G.isUnit) := by
  induction ps with
  | nil => exact .nil
  | cons p ps ih => exact .cons (fits_isUnit fs p) ih

theorem fits_all {ps : List Parser} {us : List Bool} (h : List.Forall₂ (G.Fits fs) ps us) :
    ((us.all fun u => u) = true → ∀ p ∈ ps, G.Fits fs p true) ∧
      ((us.all fun u => u) = false → ∃ p ∈ ps, G.Bears p) := by
  induction h with
  | nil => simp
  | @cons p u ps us hu _ ih =>
    cases u with
    | false => exact ⟨by simp,fun _ => ⟨p,by simp,hu⟩⟩
    | true =>
      refine ⟨fun ha q hq => ?_,fun ha => ?_⟩
      · rcases List.mem_cons.mp hq with rfl | hq
        · exact hu
        · exact ih.1 (by simpa using ha) q hq
      · obtain ⟨q,hq,hb⟩ := ih.2 (by simpa using ha)
        exact ⟨q,by simp [hq],hb⟩

/-- The shape of a sequence: what is kept was answered while no rule was. -/
theorem shape_asks {unit : Parser → Run Bool} {id : Ident} {ps : List Parser}
    (hp : G.parts id = some ps)
    (h : ∀ p ∈ ps, G.Asks w refusals fs enough (fun fs u => G.Fits fs p u) (unit p)) :
    G.Asks w refusals fs enough (fun fs us => List.Forall₂ (G.Fits fs) ps us)
      (Rules.shape unit id ps) := by
  refine .bind (Q := fun _ known => ∀ us, known = some us → us = ps.map G.isUnit)
    (fun s hs _ => ⟨hs,.refl _,hs.shape id ps hp⟩) fun known fs' hd hk => ?_
  cases known with
  | some us =>
    refine .done fun fs'' _ => ?_
    rw [hk us rfl]
    exact forall₂_isUnit _ ps
  | none =>
    refine .bind (eachUnit_asks fun p hp => (h p hp).deeper hd) fun us fs'' _ hus => ?_
    intro s hs hds
    have hus' : List.Forall₂ (G.Fits s.memory.resolving) ps us :=
      hus.imp fun _ _ hf => hf.deeper hds
    rw [Run.bind_of_value (Run.get_apply _ s)]
    cases he : s.memory.resolving.isEmpty with
    | false => exact ⟨hs,.refl _,hus'⟩
    | true =>
      rw [List.isEmpty_iff.mp he] at hus'
      rw [forall₂_exact hus']
      exact ⟨hs.setShape hp,.refl _,forall₂_isUnit _ ps⟩

/-- The suppliers of a grammar give its bodies, after so many refusals each. -/
def Supplied (G : Grammar) (w : World) (refusals : RuleId → Nat) : Prop :=
  ∀ r ∈ G.rules, w.Gives r (refusals r) (G.body r)

theorem body_asks (hw : G.Supplied w refusals) {r : RuleId} (hr : r ∈ G.rules) :
    G.Asks w refusals fs enough (fun _ p => p = G.body r) (Rules.body w r) := by
  intro s hs _
  have hc := hs.cell r hr
  unfold Rules.body
  cases hb : (s.memory.cell r).body with
  | some p =>
    simp only [hb]
    exact ⟨hs,.refl _,hc.body p hb⟩
  | none =>
    rcases Nat.lt_or_eq_of_le (hc.calls hb) with hlt | heq
    · obtain ⟨fault,hf⟩ := (hw r hr).refuses _ hlt
      have hc' : G.SoundCell refusals r { s.memory.cell r with calls := (s.memory.cell r).calls + 1 } :=
        ⟨hc.body,fun _ => hlt,hc.unit⟩
      simp only [hb,hf]
      exact ⟨hs.setCell (hb ▸ hc'),.refl _,r,hr,_,hlt,hf⟩
    · have hg := (hw r hr).gives
      rw [← heq] at hg
      have hc' : G.SoundCell refusals r { s.memory.cell r with
          calls := (s.memory.cell r).calls + 1
          body := some (G.body r) } := ⟨by simp,by simp,hc.unit⟩
      simp only [hb,hg]
      exact ⟨hs.setCell hc',.refl _,rfl⟩

/-- When the innermost answer ends, it is kept if it is exact; else what it relied on is noted. -/
theorem Sound.settle {m : Memory} (hm : G.Sound refusals m) {f : Frame}
    (hf : m.resolving = f :: fs) (hr : f.rule ∈ G.rules) {u : Bool}
    (hu : G.Fits (f :: fs) (G.body f.rule) u) (name : Text) :
    G.Sound refusals (m.settle f.rule u) ∧ Memory.Deeper fs (m.settle f.rule u).resolving ∧
      G.Fits (m.settle f.rule u).resolving (.rule f.rule name) u := by
  unfold Memory.settle
  rw [hf]
  dsimp only
  split
  · exact ⟨hm.resolving _,⟨f.low,rfl⟩,hu.rule⟩
  · rename_i hl
    have he : u = G.isUnit (G.body f.rule) := hu.rule_exact (by omega)
    have hc := hm.cell f.rule hr
    refine ⟨Sound.resolving (hm.setCell ?_) fs,.refl _,?_⟩
    · exact ⟨hc.body,hc.calls,by simp [he]⟩
    · rw [he,← isUnit_rule f.rule name]
      exact fits_isUnit _ _

/-- A rule is asked about through its body, while the rule itself is being answered. -/
theorem resolve_asks (hw : G.Supplied w refusals) {unit : Parser → Run Bool} {r : RuleId}
    {name : Text} (hr : r ∈ G.rules)
    (h : ∀ fs', Memory.Deeper fs fs' → Memory.placeOf r fs' = none →
      G.Asks w refusals (⟨r,fs'.length⟩ :: fs') enough (fun fs u => G.Fits fs (G.body r) u)
        (unit (G.body r))) :
    G.Asks w refusals fs enough (fun fs u => G.Fits fs (.rule r name) u)
      (Rules.resolve w unit r) := by
  intro s hs hd
  unfold Rules.resolve
  cases hu : (s.memory.cell r).unit with
  | some u =>
    refine ⟨hs,.refl _,?_⟩
    rw [(hs.cell r hr).unit u hu,← isUnit_rule r name]
    exact fits_isUnit _ _
  | none =>
    dsimp only
    cases hp : Memory.placeOf r s.memory.resolving with
    | some place =>
      refine ⟨hs.resolving _,⟨place,rfl⟩,fun hb => ?_⟩
      rcases bearsWithout_iff.mp hb with hm | ⟨ho,-⟩
      · cases hm
      · exact ho r name rfl (Memory.relied_of_placeOf hp)
    | none =>
      have hi : G.Asks w refusals (⟨r,s.memory.resolving.length⟩ :: s.memory.resolving) enough
          (fun fs u => G.Fits fs (G.body r) u) (Rules.body w r >>= unit) :=
        .bind (body_asks hw hr) fun p fs' hd' hp' => hp' ▸ (h _ hd hp).deeper hd'
      obtain ⟨hs',⟨low,hd'⟩,ha⟩ := hi (s.mapMemory (·.enter r)) (hs.resolving _) (.refl _)
      rcases hx : (Rules.body w r >>= unit) (s.mapMemory (·.enter r)) with ⟨u | fault | _,t⟩
      · rw [hx] at hs' hd' ha
        rw [hd'] at ha
        exact hs'.settle hd' hr ha name
      · rw [hx] at hs' hd' ha
        refine ⟨hs'.resolving _,?_,ha⟩
        rw [State.memory_mapMemory,Memory.leave,hd']
        exact .refl _
      · rw [hx] at hs' hd' ha
        refine ⟨hs'.resolving _,?_,ha⟩
        rw [State.memory_mapMemory,Memory.leave,hd']
        exact .refl _

/-- How many rules are not being answered. -/
def pending (G : Grammar) (fs : List Frame) : Nat :=
  (G.rules.filter fun r => Memory.placeOf r fs = none).length

/-- The size of all bodies together. -/
def weight (G : Grammar) : Nat := Parser.sizes (G.rules.map G.body)

theorem pending_deeper {fs fs' : List Frame} (h : Memory.Deeper fs fs') :
    G.pending fs' = G.pending fs := by
  simp only [pending,h.placeOf]

/-- Answering one more rule leaves fewer. -/
theorem pending_enter {f : Frame} (hr : f.rule ∈ G.rules)
    (hp : Memory.placeOf f.rule fs = none) : G.pending (f :: fs) < G.pending fs := by
  have hf : G.rules.filter (fun r => Memory.placeOf r (f :: fs) = none) =
      (G.rules.filter fun r => Memory.placeOf r fs = none).filter fun r => f.rule ≠ r := by
    rw [List.filter_filter]
    refine List.filter_congr fun r _ => ?_
    by_cases h : f.rule = r <;> simp [Memory.placeOf,h]
  rw [pending,pending,hf]
  refine List.length_filter_lt_length_iff_exists.mpr ⟨f.rule,?_,by simp⟩
  simp [hr,hp]

theorem isUnit_asks (hw : G.Supplied w refusals) {n : Nat} {p : Parser} (hp : G.Has p) :
    G.Asks w refusals fs (p.size + G.weight * G.pending fs ≤ n) (fun fs u => G.Fits fs p u)
      (Rules.isUnit w n p) := by
  induction n generalizing p fs with
  | zero =>
    have := p.size_pos
    exact fun s hs _ => ⟨hs,.refl _,fun he => by omega⟩
  | succ n ih =>
    have part {q : Parser} (hq : G.Has q) (hs : q.size < p.size) :
        G.Asks w refusals fs (p.size + G.weight * G.pending fs ≤ n + 1) (fun fs u => G.Fits fs q u)
          (Rules.isUnit w n q) :=
      (ih hq).imp (fun he => by omega) fun _ _ _ h => h
    have one {q : Parser} (hq : G.Has q) (hs : q.size < p.size) (hm : p.makesValue = false)
        (ho : G.handsOn p = [q]) :
        G.Asks w refusals fs (p.size + G.weight * G.pending fs ≤ n + 1) (fun fs u => G.Fits fs p u)
          (Rules.isUnit w n q) := by
      refine (part hq hs).imp id fun fs' u _ hu => .of_handsOn hm ?_ ?_
      · rintro rfl
        simpa [ho] using hu
      · rintro rfl
        exact ⟨q,by simp [ho],hu⟩
    rw [Rules.isUnit.eq_def]
    dsimp only
    cases hp with
    | terminal => exact .done fun _ _ => .of_handsOn rfl (by simp [handsOn]) (by simp)
    | not hp => exact .done fun _ _ => .of_handsOn rfl (by simp [handsOn]) (by simp)
    | map | flatMap | capture => exact .done fun _ _ => bears_of_makesValue rfl
    | @seq id ps hs hp =>
      have hps : ∀ q ∈ ps, q.size < (Parser.seq id ps).size := fun q hq => by
        have := Parser.size_le_sizes hq
        simp only [Parser.size]
        omega
      refine .bind (shape_asks hs fun q hq => part (hp q hq) (hps q hq)) fun us fs' _ hus => ?_
      refine .done fun fs'' hd => ?_
      have hu := fits_all (hus.imp fun _ _ hf => hf.deeper hd)
      exact .of_handsOn rfl hu.1 hu.2
    | @choice ps hp =>
      have hps : ∀ q ∈ ps, q.size < (Parser.choice ps).size := fun q hq => by
        have := Parser.size_le_sizes hq
        simp only [Parser.size]
        omega
      refine (allUnit_asks fun q hq => part (hp q hq) (hps q hq)).imp id fun fs' u _ hu => ?_
      exact .of_handsOn rfl hu.1 hu.2
    | rep hp hq => exact one hp (by simp only [Parser.size]; omega) rfl rfl
    | opt hp => exact one hp (by simp [Parser.size]) rfl rfl
    | cut hp => exact one hp (by simp [Parser.size]) rfl rfl
    | filter hp => exact one hp (by simp [Parser.size]) rfl rfl
    | log hp => exact one hp (by simp [Parser.size]) rfl rfl
    | @rule r name hr =>
      refine resolve_asks hw hr fun fs' hd hp => (ih (G.closed r hr)).imp ?_ fun _ _ _ h => h
      intro he
      have hlt := G.pending_enter (f := ⟨r,fs'.length⟩) hr hp
      rw [G.pending_deeper hd] at hlt
      have hmul := Nat.mul_le_mul_left G.weight (Nat.succ_le_of_lt hlt)
      have hsize := Parser.size_le_sizes (List.mem_map_of_mem (f := G.body) hr)
      rw [Nat.mul_succ] at hmul
      simp only [Parser.size,weight] at he hmul hsize ⊢
      omega

theorem parts_asks (hw : G.Supplied w refusals) {n : Nat} {id : Ident} {ps : List Parser}
    (hp : G.Has (.seq id ps)) :
    G.Asks w refusals fs (Parser.sizes ps + G.weight * G.pending fs ≤ n)
      (fun fs us => List.Forall₂ (G.Fits fs) ps us) (Rules.shape (Rules.isUnit w n) id ps) := by
  refine shape_asks hp.parts fun q hq => (isUnit_asks hw (hp.children hq)).imp (fun he => ?_)
    fun _ _ _ h => h
  have := Parser.size_le_sizes hq
  omega

/-- Only truth is remembered, and no rule is being answered. -/
structure Settled (G : Grammar) (refusals : RuleId → Nat) (m : Memory) : Prop where
  sound : G.Sound refusals m
  idle : m.resolving = []

theorem settled_new (G : Grammar) (refusals : RuleId → Nat) : G.Settled refusals {} :=
  ⟨sound_new G refusals,rfl⟩

/-- A memory that is settled where no supplier of the grammar refuses. -/
theorem Settled.of_refusals {m : Memory} (h : G.Settled refusals m)
    (h0 : ∀ r ∈ G.rules, refusals r = 0) : G.Settled (fun _ => 0) m where
  sound := ⟨fun r hr => ⟨(h.sound.cell r hr).body,
    fun hb => h0 r hr ▸ (h.sound.cell r hr).calls hb,(h.sound.cell r hr).unit⟩,h.sound.shape⟩
  idle := h.idle

theorem Supplied.of_refusals {w : World} (hw : G.Supplied w refusals)
    (h0 : ∀ r ∈ G.rules, refusals r = 0) : G.Supplied w fun _ => 0 :=
  fun r hr => ⟨by simp,h0 r hr ▸ (hw r hr).gives⟩

/-- Everything that is kept about unit parsers is the truth. -/
structure Exact (G : Grammar) (m : Memory) : Prop where
  rule : ∀ r ∈ G.rules, ∀ u, (m.cell r).unit = some u → u = G.isUnit (G.body r)
  seq : ∀ id parts, G.Has (.seq id parts) → ∀ us, m.shape id = some us → us = parts.map G.isUnit

theorem Settled.exact {m : Memory} (h : G.Settled refusals m) : G.Exact m where
  rule r hr := (h.sound.cell r hr).unit
  seq id parts hp us hus := by
    cases hp with
    | seq hparts _ => exact h.sound.shape id parts hparts us hus

theorem Asks.settled {Q : List Frame → α → Prop} {x : Run α} (h : G.Asks w refusals [] enough Q x)
    {s : State} (hs : G.Settled refusals s.memory) :
    G.Settled refusals (x s).2.memory ∧
      (x s).1.Meets (Q []) (G.Refused w refusals) (¬ enough) := by
  obtain ⟨hs',⟨low,hd⟩,ha⟩ := h s hs.sound (hs.idle ▸ .refl _)
  rw [hs.idle] at hd
  rw [hd] at ha
  exact ⟨⟨hs',hd⟩,ha⟩

/-- When no supplier refuses, what is asked is answered, if the nesting is deep enough. -/
theorem Asks.answered {Q : List Frame → α → Prop} {x : Run α}
    (h : G.Asks w (fun _ => 0) [] enough Q x) (he : enough) {s : State}
    (hs : G.Settled (fun _ => 0) s.memory) :
    ∃ a s', x s = (.value a,s') ∧ Q [] a ∧ G.Settled (fun _ => 0) s'.memory := by
  obtain ⟨hs',ha⟩ := h.settled hs
  rcases hx : x s with ⟨a | fault | _,s'⟩
  · rw [hx] at hs' ha
    exact ⟨a,s',rfl,ha,hs'⟩
  · rw [hx] at ha
    obtain ⟨r,-,k,hk,-⟩ := ha
    cases hk
  · rw [hx] at ha
    exact absurd he ha

theorem isUnit_exact (hw : G.Supplied w fun _ => 0) {n : Nat} {p : Parser} (hp : G.Has p)
    (hn : p.size + G.weight * G.pending [] ≤ n) {s : State} (hs : G.Settled (fun _ => 0) s.memory) :
    ∃ s', Rules.isUnit w n p s = (.value (G.isUnit p),s') ∧ G.Settled (fun _ => 0) s'.memory := by
  obtain ⟨u,s',hx,hu,hs'⟩ := (isUnit_asks hw hp).answered hn hs
  exact ⟨s',by rw [hx,hu.exact],hs'⟩

/-- An answer is exact, also where suppliers refuse at first. -/
theorem isUnit_of_answer {refusals : RuleId → Nat} (hw : G.Supplied w refusals) {n : Nat}
    {p : Parser} (hp : G.Has p) {s : State} (hs : G.Settled refusals s.memory) {u : Bool}
    (h : (Rules.isUnit w n p s).1 = .value u) : u = G.isUnit p := by
  obtain ⟨-,ha⟩ := (isUnit_asks (n := n) hw hp).settled hs
  rw [h] at ha
  have hf : G.Fits [] p u := ha
  exact hf.exact

theorem shape_exact (hw : G.Supplied w fun _ => 0) {n : Nat} {id : Ident} {ps : List Parser}
    (hp : G.Has (.seq id ps)) (hn : Parser.sizes ps + G.weight * G.pending [] ≤ n) {s : State}
    (hs : G.Settled (fun _ => 0) s.memory) :
    ∃ s', Rules.shape (Rules.isUnit w n) id ps s = (.value (ps.map G.isUnit),s') ∧
      G.Settled (fun _ => 0) s'.memory := by
  obtain ⟨us,s',hx,hu,hs'⟩ := (parts_asks hw hp).answered hn hs
  exact ⟨s',by rw [hx,forall₂_exact hu],hs'⟩

end Grammar
end Peg
