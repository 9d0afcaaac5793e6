import Peg.Proofs.Ends
import Peg.Proofs.Equality

/-! Parsers that can stand for each other.
Where no hook raises, a parser comes to one answer at each position, however deep its nesting has to
be, and that answer is what its node makes of the answers of the nodes below it.  Two parsers can
stand for each other when they come to the same, up to values that are not looked at.  Main
statements: every node keeps this; a log can stand for its body, and a sequence at the left of a
sequence for its parts unless values that follow tell them apart; in a parse the same comes of
both. -/
namespace Peg

namespace Answer

theorem like_lockstep :
    Parsing.Lockstep fun (α β : Type) Q (x : Answer α) (y : Answer β) => x.Like Q y where
  done hQ := .value hQ
  raise fault := .raised fault
  exhaust := .exhausted
  bind := by
    intro α β γ δ P Q x y f g hx hf
    cases hx with
    | value hab => exact hf _ _ hab
    | raised fault => exact .raised fault
    | exhausted => exact .exhausted

end Answer

namespace Outcome

/-- Outcomes that are the same but for causes, and for values where these are not asked for. -/
abbrev Same (same : Prop) : Outcome → Outcome → Prop := Agree same fun _ _ => True

theorem Same.self (same : Prop) (o : Outcome) : o.Same same o := by
  cases o with
  | success => exact .success fun _ => rfl
  | failure => exact .failure trivial

theorem Same.trans {same : Prop} {o o' o'' : Outcome} (h : o.Same same o') (h' : o'.Same same o'') :
    o.Same same o'' := by
  cases h with
  | success hv => cases h' with | success hv' => exact .success fun h => (hv h).trans (hv' h)
  | failure =>
    cases h'
    exact .failure trivial

end Outcome

namespace Leveled

/-- Having one answer from some depth on is kept by composing. -/
theorem settles_congruence : Parsing.Congruence fun (α : Type) (x : Leveled α) (a : Answer α) =>
    ∃ deep, ∀ n ≥ deep, x n = a where
  done _ := ⟨0,fun _ _ => rfl⟩
  bind := by
    rintro α β x a f g ⟨deep,hx⟩ hf
    have hstep (n : Nat) (hn : n ≥ deep) : (x >>= f) n = a >>= fun v => f v n :=
      congrArg (· >>= fun v => f v n) (hx n hn)
    cases a with
    | value v =>
      obtain ⟨deep',hf⟩ := hf v
      exact ⟨max deep deep',fun n hn => (hstep n (by omega)).trans (hf n (by omega))⟩
    | raised fault => exact ⟨deep,hstep⟩
    | exhausted => exact ⟨deep,hstep⟩
  raise _ := ⟨0,fun _ _ => rfl⟩
  exhaust := ⟨0,fun _ _ => rfl⟩

end Leveled

namespace Grammar

variable {G : Grammar} {w : World} {c : Context} {t : Text} {p q : Parser} {i : Int}

/-- What a parser comes to at a position where no hook raises, however deep its nesting has to be. -/
noncomputable def comes (G : Grammar) (t : Text) (p : Parser) (i : Int) : Answer Outcome :=
  (Answer.settles fun n _ hm => eval_of_le (G := G) (t := t) (p := p) (i := i) (n := n) hm).choose

theorem comes_spec (G : Grammar) (t : Text) (p : Parser) (i : Int) :
    ∃ deep, ∀ n ≥ deep, G.eval t n p i = G.comes t p i :=
  (Answer.settles fun n _ hm => eval_of_le (G := G) (t := t) (p := p) (i := i) (n := n) hm).choose_spec

/-- Where no hook raises, a parser means what it comes to. -/
theorem meaning_eq_comes (hh : ∀ hook, (w.hook hook).Calm) (p : Parser) (i : Int) (s : State) :
    (G.meaning w c p i s).1 = G.comes c.text p i := by
  obtain ⟨deep,h⟩ := means_settlesTo G w c p i s
  obtain ⟨deep',h'⟩ := comes_spec G c.text p i
  rw [← (h (max deep deep') (by omega)).answer_eq,means_eq_eval hh,h' _ (by omega)]

/-- What a parser comes to is what its node makes of what the nodes below it come to. -/
theorem comes_eq (p : Parser) (i : Int) :
    G.comes t p i = Parsing.node G.plain t (G.comes t) p i := by
  have hR := Leveled.settles_congruence
  obtain ⟨deep,hnode⟩ : ∃ deep, ∀ n ≥ deep,
      Parsing.node G.plainLeveled t (fun q j m => G.eval t m q j) p i n =
        Parsing.node G.plain t (G.comes t) p i :=
    hR.node t p i (fun q _ j => comes_spec G t q j) (fun _ _ _ _ _ q _ _ j => comes_spec G t q j)
      (fun _ _ _ => hR.done _) (fun r _ _ => comes_spec G t (G.body r) i)
      fun _ body _ _ _ => comes_spec G t body i
  obtain ⟨deep',hcomes⟩ := comes_spec G t p i
  rw [← hcomes (max deep deep' + 1) (by omega),← eval_succ,hnode _ (by omega)]

/-- Parsers that can stand for each other where their values are looked at, or only where they are
not. -/
structure Alike (G : Grammar) (t : Text) (same : Prop) (p q : Parser) : Prop where
  unit : G.isUnit p = G.isUnit q
  ends : ∀ i, (G.comes t p i).Like (Outcome.Same same) (G.comes t q i)

namespace Alike

variable {same : Prop} {ps qs rs : List Parser} {a b id : Ident}

theorem refl (G : Grammar) (t : Text) (same : Prop) (p : Parser) :
    G.Alike t same p p :=
  ⟨rfl,fun _ => .self (Outcome.Same.self same) _⟩

theorem trans {r : Parser} (h : G.Alike t same p q) (h' : G.Alike t same q r) :
    G.Alike t same p r :=
  ⟨h.unit.trans h'.unit,fun i => (h.ends i).trans (h'.ends i) fun _ _ _ => Outcome.Same.trans⟩

theorem all_self (G : Grammar) (t : Text) (same : Prop) (ps : List Parser) :
    List.Forall₂ (G.Alike t same) ps ps :=
  List.forall₂_same.mpr fun p _ => refl G t same p

theorem map_isUnit (h : List.Forall₂ (G.Alike t same) ps qs) :
    ps.map G.isUnit = qs.map G.isUnit :=
  map_isUnit_eq (h.imp fun _ _ hpq => hpq.unit)

theorem all_isUnit (h : List.Forall₂ (G.Alike t same) ps qs) :
    ps.all G.isUnit = qs.all G.isUnit := by
  simpa [List.all_map] using congrArg (List.all · id) (map_isUnit h)

/-- Nodes of one kind can stand for each other when what is below them can, as far as the nodes look
at values. -/
theorem of_resembles (h : p.Resembles (G.Alike t) same q)
    (hr : ∀ r name r' name', p = .rule r name → q = .rule r' name' → r = r')
    (hl : ∀ id x name hook id' y name' hook', p = .log id x name hook → q = .log id' y name' hook' →
      hook = hook') : G.Alike t same p q := by
  refine ⟨?_,fun i => ?_⟩
  · cases h with
    | terminal => rw [isUnit_terminal,isUnit_terminal]
    | seq h =>
      rw [isUnit_seq,isUnit_seq]
      exact all_isUnit h
    | choice h =>
      rw [isUnit_choice,isUnit_choice]
      exact all_isUnit h
    | rep h _ =>
      rw [isUnit_rep,isUnit_rep]
      exact h.unit
    | opt h =>
      rw [isUnit_opt,isUnit_opt]
      exact h.unit
    | not => rw [isUnit_eq,isUnit_eq (.not _)]; rfl
    | cut h =>
      rw [isUnit_cut,isUnit_cut]
      exact h.unit
    | map => rw [isUnit_map,isUnit_map]
    | flatMap => rw [isUnit_eq,isUnit_eq (.flatMap ..)]; rfl
    | filter h =>
      rw [isUnit_filter,isUnit_filter]
      exact h.unit
    | capture => rw [isUnit_capture,isUnit_capture]
    | @rule r r' name name' => rw [isUnit_rule,isUnit_rule,hr r name r' name' rfl rfl]
    | log h =>
      rw [isUnit_log,isUnit_log]
      exact h.unit
  · rw [comes_eq p,comes_eq q]
    refine Answer.like_lockstep.node_agree h trivial i (fun asked x y hxy j => hxy.ends j) ?_ ?_ ?_
    · rintro id id' ps qs rfl rfl
      cases h with
      | seq h => exact .value (map_isUnit h)
    · rintro r name r' name' rfl rfl
      rw [hr r name r' name' rfl rfl]
      exact .self (Outcome.Same.self same) _
    · rintro id x name hook id' y name' hook' rfl rfl
      cases h with
      | log h =>
        rw [hl _ _ _ _ _ _ _ _ rfl rfl]
        exact h.ends i

theorem seq (h : List.Forall₂ (G.Alike t same) ps qs) :
    G.Alike t same (.seq a ps) (.seq b qs) :=
  of_resembles (.seq h) nofun nofun

theorem choice (h : List.Forall₂ (G.Alike t same) ps qs) :
    G.Alike t same (.choice ps) (.choice qs) :=
  of_resembles (.choice h) nofun nofun

/-- A log can stand for its body. -/
theorem log_right {name : Text} {hook : Option HookId} (h : G.Alike t same p q) :
    G.Alike t same p (.log id q name hook) where
  unit := by rw [h.unit,isUnit_log]
  ends i := by
    have hlog : G.comes t (.log id q name hook) i = G.comes t q i := comes_eq _ i
    rw [hlog]
    exact h.ends i

end Alike

section Nesting

variable {same : Prop} {step : Parser → Int → Answer Outcome}

/-- A sequence goes on alike after values that are told apart by nothing that it adds. -/
theorem sequence_after_values (parts : List (Parser × Bool)) {values values' : List Value}
    (cut : Bool) (i : Int) (h : same → ∀ vs : List Value, vs.length = parts.countP (!·.2) →
      pack (values.reverse ++ vs) = pack (values'.reverse ++ vs)) :
    (Parsing.sequence step parts values cut i).Like (Outcome.Same same)
      (Parsing.sequence step parts values' cut i) := by
  induction parts generalizing values values' cut i with
  | nil => exact .value (.success fun hs => by simpa using h hs [] rfl)
  | cons part parts ih =>
    obtain ⟨p,unit⟩ := part
    refine Answer.like_lockstep.same (.self (fun _ => rfl) (step p i)) fun o => ?_
    cases o with
    | failure j cause c => exact .value (.failure trivial)
    | success v j c =>
      refine ih _ j fun hs vs hvs => ?_
      cases unit with
      | true => exact h hs vs (by simpa using hvs)
      | false => simpa using h hs (v :: vs) (by simpa using hvs)

/-- A sequence at the left of a sequence does what its parts do there, but that its values are
packed before the ones that follow. -/
theorem sequence_nested (xs ys : List (Parser × Bool)) (unit : Bool) {values : List Value}
    (cut : Bool) (i : Int) (h : same → ∀ us vs : List Value, us.length = xs.countP (!·.2) →
      vs.length = ys.countP (!·.2) → pack (values.reverse ++ us ++ vs) =
        pack ((if unit then [] else [pack (values.reverse ++ us)]) ++ vs)) :
    (Parsing.sequence step (xs ++ ys) values cut i).Like (Outcome.Same same)
      (Parsing.sequence step xs values cut i >>= fun
        | .failure j cause c => pure (.failure j cause (false || c))
        | .success v j c =>
          Parsing.sequence step ys (if unit then [] else [v]) (false || c) j) := by
  induction xs generalizing values cut i with
  | nil =>
    refine sequence_after_values ys cut i fun hs vs hvs => ?_
    cases unit with
    | true => simpa using h hs [] vs rfl hvs
    | false => simpa using h hs [] vs rfl hvs
  | cons part xs ih =>
    obtain ⟨p,u⟩ := part
    simp only [List.cons_append,Parsing.sequence,bind_assoc]
    refine Answer.like_lockstep.same (.self (fun _ => rfl) (step p i)) fun o => ?_
    cases o with
    | failure j cause c => exact .value (.failure trivial)
    | success v j c =>
      refine ih _ j fun hs us vs hus hvs => ?_
      cases u with
      | true => exact h hs us vs (by simpa using hus) hvs
      | false => simpa using h hs (v :: us) vs (by simpa using hus) hvs

/-- A choice at the left of a choice does what its branches do there. -/
theorem choice_nested (whole inner outer : Parser) (i : Int) (ps qs : List Parser) :
    (Parsing.choice step whole i (ps ++ qs)).Like (Outcome.Same same)
      (Parsing.choice step inner i ps >>= fun
        | .success v j _ => pure (.success v j false)
        | .failure _ _ c =>
          if c then pure (.failure i outer true) else Parsing.choice step outer i qs) := by
  induction ps with
  | nil =>
    refine Answer.like_lockstep.choice_agree (S := fun _ => (· = ·))
      (List.forall₂_same.mpr fun _ _ => rfl) ?_ trivial i
    rintro asked x _ rfl j
    exact .self (Outcome.Same.self asked) _
  | cons p ps ih =>
    simp only [List.cons_append,Parsing.choice,bind_assoc]
    refine Answer.like_lockstep.same (.self (fun _ => rfl) (step p i)) fun o => ?_
    cases o with
    | success v j c => exact .value (.success fun _ => rfl)
    | failure j cause c =>
      cases c with
      | true => exact .value (.failure trivial)
      | false => exact ih

end Nesting

namespace Alike

variable {same : Prop} {ps qs : List Parser} {a b m : Ident}

/-- Packing values in two steps makes no difference where at most one comes first or none
follows. -/
theorem pack_nested {unit : Bool} {us vs : List Value} (hunit : unit = true ↔ us = [])
    (h : us.length ≤ 1 ∨ vs = []) :
    pack (us ++ vs) = pack ((if unit then [] else [pack us]) ++ vs) := by
  match us, h with
  | [], _ =>
    rw [hunit.mpr rfl]
    rfl
  | [u], _ =>
    rw [if_neg (by simp [hunit])]
    rfl
  | _ :: _ :: _, .inr hvs =>
    rw [hvs,List.append_nil,if_neg (by simp [hunit])]
    rfl

/-- A sequence at the left of a sequence can stand for its parts there, unless it packs more than
one value and values follow. -/
theorem nest (h : same → ps.countP (!G.isUnit ·) ≤ 1 ∨ qs.all G.isUnit = true) :
    G.Alike t same (.seq a (ps ++ qs)) (.seq b (.seq m ps :: qs)) where
  unit := by simp
  ends i := by
    have hcount (xs : List Parser) :
        (xs.zip (xs.map G.isUnit)).countP (!·.2) = xs.countP (!G.isUnit ·) := by
      induction xs with
      | nil => rfl
      | cons x xs ih => simp [List.countP_cons,ih]
    have hseq (id : Ident) (xs : List Parser) (i : Int) : G.comes t (.seq id xs) i =
        Parsing.sequence (G.comes t) (xs.zip (xs.map G.isUnit)) [] false i :=
      comes_eq (.seq id xs) i
    rw [hseq a,hseq b,List.map_append,List.zip_append (by simp),List.map_cons,List.zip_cons_cons,
      Parsing.sequence,hseq m]
    refine sequence_nested _ _ _ _ _ fun hs us vs hus hvs => ?_
    rw [hcount] at hus hvs
    show pack (us ++ vs) = pack ((if _ then [] else [pack us]) ++ vs)
    refine pack_nested ?_ ?_
    · rw [isUnit_seq,← List.length_eq_zero_iff,hus,List.countP_eq_zero]
      simp
    · refine (h hs).imp (fun hle => hus ▸ hle) fun hall => ?_
      rw [← List.length_eq_zero_iff,hvs,List.countP_eq_zero]
      simpa using hall

/-- A choice at the left of a choice can stand for its branches there. -/
theorem nest_choice :
    G.Alike t same (.choice (ps ++ qs)) (.choice (.choice ps :: qs)) where
  unit := by simp
  ends i := by
    have hchoice (xs : List Parser) : G.comes t (.choice xs) i =
        Parsing.choice (G.comes t) (.choice xs) i xs := comes_eq (.choice xs) i
    rw [hchoice,hchoice (.choice ps :: qs),Parsing.choice,hchoice ps]
    exact choice_nested _ _ _ i ps qs

end Alike

/-- Parsers that can stand for each other end alike in all parses where no hook raises. -/
theorem parse_alike {refusals : RuleId → Nat} (hw : G.Supplied w refusals)
    (hh : ∀ hook, (w.hook hook).Calm) (hp : G.Has p) (hq : G.Has q) (h : G.Alike c.text True p q)
    (i : Int) :
    ∃ a b, G.Promises w refusals c p i a ∧ G.Promises w refusals c q i b ∧ a.Like EndsAlike b := by
  refine ⟨_,_,(accounts_meaning hw hp i).promises (.inr hh),
    (accounts_meaning hw hq i).promises (.inr hh),?_⟩
  rw [meaning_eq_comes hh,meaning_eq_comes hh]
  exact h.ends i

end Grammar
end Peg
