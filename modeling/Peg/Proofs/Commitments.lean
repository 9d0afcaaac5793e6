import Peg.Proofs.Ends
import Peg.Proofs.Uncut

/-! Cuts that change nothing.
The meaning of a parser over a grammar is laid beside the meaning of the same parser without its
cuts.  Main statement: where all branches that are left would fail once a branch has failed with a
cut, both succeed alike or fail at the same position. -/
namespace Peg

/-- Without cuts a parser is over the same rules, and its sequences have the same parts but for
cuts. -/
theorem Parser.Over.uncut {rules : List RuleId} {parts : Ident → Option (List Parser)} {p : Parser}
    (h : p.Over rules parts) :
    p.uncut.Over rules fun id => (parts id).map (List.map Parser.uncut) := by
  induction h with
  | terminal => exact .terminal
  | @seq id ps hs _ ih =>
    rw [Parser.uncut,Parser.uncutAll_eq_map]
    exact .seq (by simp [hs]) (by simpa using ih)
  | @choice ps _ ih =>
    rw [Parser.uncut,Parser.uncutAll_eq_map]
    exact .choice (by simpa using ih)
  | rep _ _ ihp ihq => exact .rep ihp ihq
  | opt _ ih => exact .opt ih
  | not _ ih => exact .not ih
  | cut _ ih => exact ih
  | map _ ih => exact .map ih
  | @flatMap id p next name _ _ ihp ihn =>
    refine .flatMap ihp fun v q hq => ?_
    cases hn : next v with
    | ok r =>
      rw [hn] at hq
      cases hq
      exact ihn v r hn
    | error fault =>
      rw [hn] at hq
      cases hq
  | filter _ ih => exact .filter ih
  | capture _ ih => exact .capture ih
  | rule hr => exact .rule hr
  | log _ ih => exact .log ih

namespace Grammar

variable {G : Grammar}

/-- The grammar without its cuts. -/
def uncut (G : Grammar) : Grammar where
  rules := G.rules
  body r := (G.body r).uncut
  parts id := (G.parts id).map (List.map Parser.uncut)
  closed r hr := (G.closed r hr).uncut

theorem Has.uncut {p : Parser} (h : G.Has p) : G.uncut.Has p.uncut := Parser.Over.uncut h

theorem Supplied.uncut {w : World} {refusals : RuleId → Nat} (h : G.Supplied w refusals) :
    G.uncut.Supplied w.uncut refusals := by
  intro r hr
  obtain ⟨hrefuses,hgives⟩ := h r hr
  refine ⟨fun k hk => ?_,?_⟩
  · obtain ⟨fault,hf⟩ := hrefuses k hk
    exact ⟨fault,by simp only [World.uncut,hf,Parser.uncutNext]⟩
  · simp only [World.uncut,hgives,Parser.uncutNext]
    rfl

/-! ## Unit parsers -/

theorem handsOn_uncut {p q : Parser} (hp : ∀ body, p ≠ .cut body) :
    q ∈ G.uncut.handsOn p.uncut ↔ ∃ x ∈ G.handsOn p, q = x.uncut := by
  cases p with
  | cut body => exact absurd rfl (hp body)
  | seq | choice => simp [handsOn,Parser.uncut,eq_comm]
  | terminal | rep | opt | not | map | flatMap | filter | capture | rule | log =>
    simp [handsOn,Parser.uncut,Grammar.uncut]

theorem makesValue_uncut {p : Parser} (hp : ∀ body, p ≠ .cut body) :
    p.uncut.makesValue = p.makesValue := by
  cases p with
  | cut body => exact absurd rfl (hp body)
  | _ => rfl

/-- What stands below the cuts at the top of a parser. -/
theorem exists_below_cuts (p : Parser) : ∃ q, (∀ body, q ≠ .cut body) ∧ q.uncut = p.uncut ∧
    (G.Bears q ↔ G.Bears p) := by
  by_cases h : ∃ body, p = .cut body
  · obtain ⟨body,rfl⟩ := h
    obtain ⟨q,hq,hu,hb⟩ := exists_below_cuts body
    refine ⟨q,hq,hu,hb.trans ?_⟩
    rw [bears_iff (p := .cut body)]
    simp [Parser.makesValue,handsOn]
  · exact ⟨p,fun body hp => h ⟨body,hp⟩,rfl,.rfl⟩
termination_by p.size
decreasing_by
  rename_i hp
  rw [hp]
  simp [Parser.size]

theorem bears_uncut (p : Parser) : G.uncut.Bears p.uncut ↔ G.Bears p := by
  constructor
  · rintro ⟨q',hr,hq'⟩
    generalize hp : p.uncut = p' at hr
    induction hr using Relation.ReflTransGen.head_induction_on generalizing p with
    | refl =>
      obtain ⟨q,hq,hu,hb⟩ := exists_below_cuts (G := G) p
      refine hb.mp (bears_of_makesValue ?_)
      rw [← makesValue_uncut hq,hu,hp]
      exact hq'
    | head hx _ ih =>
      obtain ⟨q,hq,hu,hb⟩ := exists_below_cuts (G := G) p
      rw [← hp,← hu] at hx
      obtain ⟨y,hy,rfl⟩ := (handsOn_uncut hq).mp hx
      exact hb.mp ((ih y rfl).of_handsOn hy)
  · rintro ⟨q,hr,hq⟩
    induction hr using Relation.ReflTransGen.head_induction_on with
    | refl =>
      refine bears_of_makesValue ?_
      rwa [makesValue_uncut fun body h => by subst h; cases hq]
    | @head x y hx _ ih =>
      by_cases hcut : ∃ body, x = .cut body
      · obtain ⟨body,rfl⟩ := hcut
        obtain rfl : y = body := List.mem_singleton.mp hx
        exact ih
      · exact ih.of_handsOn ((handsOn_uncut fun body h => hcut ⟨body,h⟩).mpr ⟨y,hx,rfl⟩)

theorem isUnit_uncut (p : Parser) : G.uncut.isUnit p.uncut = G.isUnit p := by
  rw [Bool.eq_iff_iff,isUnit_eq_true_iff,isUnit_eq_true_iff,bears_uncut]

end Grammar

/-! ## Meanings side by side -/

namespace Answer

/-- What the first one gives is lost, or at every depth that is large enough the second one gives
something that is related to it. -/
def Beside (α β : Type) (lost : α → Prop) (Q : α → β → Prop) (x : Answer α) (y : Leveled β) : Prop :=
  ∀ a, x = .value a → lost a ∨ ∃ b, (∃ deep, ∀ n ≥ deep, y n = .value b) ∧ Q a b

theorem beside_simulation : Parsing.Simulation Beside where
  done hQ := by
    rintro _ ⟨⟩
    exact .inr ⟨_,⟨0,fun _ _ => rfl⟩,hQ⟩
  lost hl := by
    rintro _ ⟨⟩
    exact .inl hl
  imp h hl hQ a ha := by
    rcases h a ha with hla | ⟨b,hb,hab⟩
    · exact .inl (hl a hla)
    · exact .inr ⟨b,hb,hQ a b hab⟩
  raise _ h := nomatch h
  exhaust _ h := nomatch h
  bind := by
    intro α β γ δ lost Q lost' Q' x y f g hx hl hf c hc
    cases x with
    | raised fault => cases hc
    | exhausted => cases hc
    | value a =>
      change f a = .value c at hc
      rcases hx a rfl with hla | ⟨b,⟨deep,hb⟩,hab⟩
      · obtain ⟨c',hfa,hc'⟩ := hl a hla
        rw [hfa] at hc
        cases hc
        exact .inl hc'
      · rcases hf a b hab c hc with hlc | ⟨d,⟨deep',hd⟩,hcd⟩
        · exact .inl hlc
        · refine .inr ⟨d,⟨max deep deep',fun n hn => ?_⟩,hcd⟩
          change (y n >>= fun b => g b n) = .value d
          rw [hb n (by omega)]
          exact hd n (by omega)

variable {α β : Type} {lost : α → Prop} {Q : α → β → Prop} {x : Answer α} {y : Leveled β}

theorem Beside.succ (h : Beside α β lost Q x fun n => y (n + 1)) : Beside α β lost Q x y := by
  intro a ha
  rcases h a ha with hl | ⟨b,⟨deep,hb⟩,hab⟩
  · exact .inl hl
  · refine .inr ⟨b,⟨deep + 1,fun n hn => ?_⟩,hab⟩
    obtain ⟨m,rfl⟩ := Nat.exists_eq_add_of_le' hn
    exact hb (m + deep) (by omega)

/-- Of what is given it is known where it comes from. -/
theorem Beside.origin (h : Beside α β lost Q x y) :
    Beside α β lost (fun a b => Q a b ∧ x = .value a) x y := by
  intro a ha
  rcases h a ha with hl | ⟨b,hb,hab⟩
  · exact .inl hl
  · exact .inr ⟨b,hb,hab,ha⟩

end Answer

namespace Grammar

variable {G : Grammar} {t : Text}

/-- Parsers that running does not lead out of. -/
structure Encloses (G : Grammar) (S : Parser → Prop) : Prop where
  children : ∀ p, S p → ∀ q ∈ p.children, S q
  body : ∀ r name, S (.rule r name) → S (G.body r)
  next : ∀ id p next name v q, S (.flatMap id p next name) → next v = .ok q → S q

/-- Among these parsers, where a choice stops at a cut, all branches that are left would fail. -/
def Idle (G : Grammar) (t : Text) (S : Parser → Prop) : Prop :=
  ∀ branches, S (.choice branches) → ∀ p ps, p :: ps <:+ branches → ∀ n i j cause,
    G.eval t n p i = .value (.failure j cause true) → ∀ q ∈ ps, G.uncut.Fails t q.uncut i false

theorem choice_idle {qs : List Parser} {whole : Parser} {i : Int}
    (h : ∀ q ∈ qs, G.uncut.Fails t q.uncut i false) : ∃ deep, ∀ n ≥ deep,
      (Parsing.choice (fun q j m => G.uncut.eval t m q j) whole i (qs.map Parser.uncut) :
        Leveled Outcome) n = .value (.failure i whole false) := by
  have hnone : G.uncut.EndsChoice t whole i (qs.map Parser.uncut) (.value (.failure i whole false)) :=
    .none (by simpa using h)
  obtain ⟨deep,h⟩ := hnone
  refine ⟨deep,fun n hn => ?_⟩
  rw [← h n hn]
  exact (Leveled.level_congruence n).choice whole i _ fun _ _ => rfl

/-- The meaning of a parser beside its meaning without cuts, if there are no cuts or all of them
change nothing. -/
theorem eval_beside {cuts : Prop} {S : Parser → Prop} (hS : G.Encloses S)
    (hcut : ∀ body, S (.cut body) → cuts) (hidle : cuts → G.Idle t S) (n : Nat) {p : Parser}
    (hp : S p) (i : Int) :
    Answer.Beside _ _ (Outcome.Lost False) (Outcome.Uncut cuts) (G.eval t n p i)
      (fun m => G.uncut.eval t m p.uncut i) := by
  have hR := Answer.beside_simulation
  induction n generalizing p i with
  | zero => exact hR.exhaust
  | succ n ih =>
    by_cases hiscut : ∃ body, p = .cut body
    · obtain ⟨body,rfl⟩ := hiscut
      exact hR.cut (hcut body hp) (ih (hS.children _ hp body (by simp [Parser.children])) i) rfl
    refine .succ ?_
    rw [← funext (eval_succ t p.uncut i)]
    by_cases hchoice : ∃ branches, p = .choice branches
    · obtain ⟨branches,rfl⟩ := hchoice
      rw [Parser.uncut,Parser.uncutAll_eq_map]
      refine hR.choice (.choice branches) _ i branches
        (fun q hq => (ih (hS.children _ hp q hq) i).origin) fun hcuts q qs hq j cause ho => ?_
      rintro _ ⟨⟩
      exact .inr ⟨_,choice_idle (hidle hcuts branches hp q qs hq n i j cause ho),
        .failure fun _ => hcuts⟩
    refine hR.node t p i (fun body h => hiscut ⟨body,h⟩) (fun bs h => hchoice ⟨bs,h⟩)
      (fun _ q hq j => ih (hS.children p hp q hq) j) (fun _ q hq j => ih (hS.children p hp q hq) j)
      ?_ ?_ ?_ ?_
    · rintro id body next name v q rfl hq j
      exact ih (hS.next id body next name v q hp hq) j
    · rintro id parts rfl
      refine hR.done ?_
      simp [isUnit_uncut]
    · rintro r name rfl
      exact ih (hS.body r name hp) i
    · rintro id body name hook rfl
      exact ih (hS.children _ hp body (by simp [Parser.children])) i

theorem encloses_cutless (G : Grammar) : G.Encloses fun p => p.cutless = true where
  children _ hp _ hq := Parser.cutless_children hp hq
  body _ _ h := nomatch h
  next _ _ _ _ _ _ h := nomatch h

/-- A parser without cuts ends without one. -/
theorem hasCut_of_cutless {n : Nat} {p : Parser} (hp : p.cutless = true) {i : Int} {o : Outcome}
    (h : G.eval t n p i = .value o) : o.hasCut = false := by
  have hcut : ∀ body : Parser, body.cut.cutless = true → False := nofun
  rcases eval_beside (encloses_cutless G) hcut False.elim n hp i o h with ⟨hl,-⟩ | ⟨o',-,ho⟩
  · exact hl.elim
  · cases ho with
    | success hc | failure hc => exact Bool.eq_false_iff.mpr hc

/-- Without cuts that change nothing a parser ends as with them. -/
theorem Ends.uncut {S : Parser → Prop} (hS : G.Encloses S) (hidle : G.Idle t S) {p : Parser}
    (hp : S p) {i : Int} {o : Outcome} (h : G.Ends t p i (.value o)) :
    ∃ o', G.uncut.Ends t p.uncut i (.value o') ∧ Outcome.Uncut True o o' := by
  obtain ⟨n,h⟩ := h
  have hcut : ∀ body, S (.cut body) → True := fun _ _ => trivial
  rcases eval_beside hS hcut (fun _ => hidle) n hp i o (h n (Nat.le_refl n)) with ⟨hl,-⟩ | ho
  · exact hl.elim
  · exact ho

end Grammar
end Peg
