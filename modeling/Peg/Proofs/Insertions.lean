import Peg.Expr
import Peg.Proofs.Interchange
import Peg.Proofs.Unrolling

/-! Logs inserted into an expression.
Joining looks at whether the parser on the left is a sequence or a choice; a log around it hides
that from what is joined next.  An expression and the same one with a log around one of its parts
are built side by side.  Main statement: both raise the same fault, or they are built into parsers
that parse every text alike, unless the log keeps values in a tuple of their own that would have
been joined to those of the operands that follow. -/
namespace Peg

/-- What a parser adds to a choice at whose left it stands: its branches if it is a choice itself,
else itself. -/
def Parser.branches : Parser → List Parser
  | choice branches => branches
  | p => [p]

theorem Parser.orElse_eq (p q : Parser) : p.orElse q = .choice (p.branches ++ [q]) := by
  cases p <;> rfl

theorem Parser.branches_cases (p : Parser) :
    p.branches = [p] ∨ p = .choice p.branches := by
  cases p with
  | choice branches => exact .inr rfl
  | _ => exact .inl rfl

namespace Results

variable {α β γ δ : Type} {P : α → β → Prop} {Q : γ → δ → Prop} {x : Except Fault α}
  {y : Except Fault β}

theorem bind {f : α → Except Fault γ} {g : β → Except Fault δ} (h : Results P x y)
    (hf : ∀ a b, P a b → Results Q (f a) (g b)) : Results Q (x >>= f) (y >>= g) := by
  cases h with
  | ok hab => exact hf _ _ hab
  | error fault => exact .error fault

theorem imp {P' : α → β → Prop} (h : Results P x y)
    (hP : ∀ a b, x = .ok a → y = .ok b → P a b → P' a b) : Results P' x y := by
  cases h with
  | ok hab => exact .ok (hP _ _ rfl rfl hab)
  | error fault => exact .error fault

end Results

/-- Operands side by side: parsers that are related, or the same word or value. -/
inductive Operand.Like (F : Parser → Parser → Prop) : Operand → Operand → Prop
  | parser {p q : Parser} : F p q → Like F (.parser p) (.parser q)
  | text (t : Text) : Like F (.text t) (.text t)
  | plain (v : Value) : Like F (.plain v) (.plain v)

namespace Operand.Like

variable {F F' : Parser → Parser → Prop} {o o' : Operand}

theorem imp (h : o.Like F o') (hF : ∀ p q, F p q → F' p q) : o.Like F' o' := by
  cases h with
  | parser h => exact .parser (hF _ _ h)
  | text t => exact .text t
  | plain v => exact .plain v

theorem toParser (h : o.Like F o') (hword : ∀ id id' t, F (.word id t) (.word id' t))
    (id id' : Ident) : Results F (o.toParser id) (o'.toParser id') := by
  cases h with
  | parser h => exact .ok h
  | text t => exact .ok (hword id id' t)
  | plain v => exact .error _

theorem receiver (h : o.Like F o') : Results F o.receiver o'.receiver := by
  cases h with
  | parser h => exact .ok h
  | text | plain => exact .error _

theorem inverted (h : o.Like F o') (hF : ∀ p q, F p q → F' (.not p) (.not q)) :
    Results (Operand.Like F') o.inverted o'.inverted := by
  cases h with
  | parser h => exact .ok (.parser (hF _ _ h))
  | text t => exact .error _
  | plain v =>
    dsimp only [Operand.inverted]
    cases v.asInt? with
    | some n => exact .ok (.plain _)
    | none => exact .error _

theorem value?_eq (h : o.Like F o') : o'.value? = o.value? := by
  cases h <;> rfl

theorem ofValue (F : Parser → Parser → Prop) (v : Value) :
    (Operand.ofValue v).Like F (.ofValue v) := by
  cases v with
  | str t => exact .text t
  | _ => exact .plain _

/-- Operators keep what they keep of parsers that they join; values that they combine are the
same. -/
theorem apply {F₁ F₂ : Parser → Parser → Prop} {op : Operator} {id id' : Ident}
    (h₁ : ∀ id id' t, F₁ (.word id t) (.word id' t))
    (h₂ : ∀ id id' t, F₂ (.word id t) (.word id' t))
    (hjoin : ∀ p q r r', F₁ p q → F₂ r r' → F (op.join id p r) (op.join id' q r')) (i : Nat)
    {left left' right right' : Operand} (hl : left.Like F₁ left') (hr : right.Like F₂ right') :
    Results (Operand.Like F) (op.apply id i left right) (op.apply id' i left' right') := by
  have hjoined : Results (Operand.Like F)
      (do .ok (.parser (op.join id (← left.toParser (.part 0 id)) (← right.toParser (.part i id)))))
      (do .ok (.parser
        (op.join id' (← left'.toParser (.part 0 id')) (← right'.toParser (.part i id'))))) :=
    (hl.toParser h₁ _ _).bind fun p q hpq => (hr.toParser h₂ _ _).bind fun r r' hrr =>
      .ok (.parser (hjoin p q r r' hpq hrr))
  rw [Operator.apply,Operator.apply,hl.value?_eq,hr.value?_eq]
  cases left.value? with
  | none => exact hjoined
  | some v =>
    cases right.value? with
    | none => exact hjoined
    | some w =>
      dsimp only
      cases op.combine v w with
      | error fault => exact .error fault
      | ok u => exact .ok (ofValue F u)

/-- A method that both receivers have. -/
theorem method {x y : Except Fault Operand} (h : Results (Operand.Like F) x y)
    {f g : Parser → Parser} (hF : ∀ p q, F p q → F' (f p) (g q)) :
    Results (Operand.Like F') (x >>= fun o => o.receiver >>= fun p => .ok (.parser (f p)))
      (y >>= fun o => o.receiver >>= fun p => .ok (.parser (g p))) :=
  h.bind fun _ _ ho => ho.receiver.bind fun _ _ hpq => .ok (.parser (hF _ _ hpq))

end Operand.Like

namespace Expr

-- the equations of building are stated here, once for all proofs below
attribute [local simp] build buildOnto buildAll

/-- Expressions without flat maps: of where these are built their parsers keep no more than the
names of nodes. -/
inductive Fixed : Expr → Prop
  | text {t : Text} : Fixed (.text t)
  | plain {v : Value} : Fixed (.plain v)
  | ref {key : Text} : Fixed (.ref key)
  | given {p : Parser} : Fixed (.given p)
  | terminal {t : Terminal} : Fixed (.terminal t)
  | char {t : Text} : Fixed (.char t)
  | runOf {chars : Text} {least : Int} : Fixed (.runOf chars least)
  | regex {source : Text} {flags : Pattern.Flags} : Fixed (.regex source flags)
  | product {es : List Expr} : (∀ e ∈ es, Fixed e) → Fixed (.product es)
  | sum {es : List Expr} : (∀ e ∈ es, Fixed e) → Fixed (.sum es)
  | seqOf {es : List Expr} : (∀ e ∈ es, Fixed e) → Fixed (.seqOf es)
  | choiceOf {es : List Expr} : (∀ e ∈ es, Fixed e) → Fixed (.choiceOf es)
  | not {e : Expr} : Fixed e → Fixed (.not e)
  | invert {e : Expr} : Fixed e → Fixed (.invert e)
  | map {e : Expr} {f : Value → Except Fault Value} {name : Text} : Fixed e → Fixed (.map e f name)
  | filter {e : Expr} {test : Value → Except Fault Bool} {name : Text} :
    Fixed e → Fixed (.filter e test name)
  | capture {e : Expr} : Fixed e → Fixed (.capture e)
  | opt {e : Expr} : Fixed e → Fixed (.opt e)
  | cut {e : Expr} : Fixed e → Fixed (.cut e)
  | rep {e : Expr} {least : Quantity} {most : Option Quantity} :
    Fixed e → Fixed (.rep e least most none)
  | repWith {e s : Expr} {least : Quantity} {most : Option Quantity} :
    Fixed e → Fixed s → Fixed (.rep e least most (some s))
  | log {e : Expr} {name : Text} {hook : Option Text} : Fixed e → Fixed (.log e name hook)

/-- Wherever they are built, two expressions are built into operands whose parsers are related, or
raise the same fault. -/
def Beside (names : Names) (F : Parser → Parser → Prop) (e e' : Expr) : Prop :=
  ∀ id id', Results (Operand.Like F) (e.build names id) (e'.build names id')

variable {names : Names} {F A : Parser → Parser → Prop} {e e' : Expr} {es es' : List Expr}

theorem Beside.imp (h : e.Beside names F e') (hF : ∀ p q, F p q → A p q) : e.Beside names A e' :=
  fun id id' => (h id id').imp fun _ _ _ _ ho => ho.imp hF

/-- What is known of the parser of the first expression is known beside it. -/
theorem Beside.and {P : Parser → Prop} (h : e.Beside names F e')
    (hP : ∀ id p, e.build names id = .ok (.parser p) → P p) :
    e.Beside names (fun p q => F p q ∧ P p) e' := by
  intro id id'
  have hbuilt := h id id'
  have hPid := hP id
  generalize e.build names id = x at hbuilt hPid
  generalize e'.build names id' = y at hbuilt
  cases hbuilt with
  | error fault => exact .error fault
  | ok ho =>
    cases ho with
    | parser hpq => exact .ok (.parser ⟨hpq,hPid _ rfl⟩)
    | text t => exact .ok (.text t)
    | plain v => exact .ok (.plain v)

theorem buildAll_beside (h : List.Forall₂ (Beside names A) es es') (id id' : Ident) (i : Nat) :
    Results (List.Forall₂ (Operand.Like A)) (buildAll names id i es)
      (buildAll names id' i es') := by
  induction h generalizing i with
  | nil =>
    rw [buildAll,buildAll]
    exact .ok .nil
  | cons he _ ih =>
    rw [buildAll,buildAll]
    exact (he _ _).bind fun _ _ ho => (ih (i + 1)).bind fun _ _ hos => .ok (.cons ho hos)

theorem toParsers_beside (hword : ∀ id id' t, A (.word id t) (.word id' t)) {os os' : List Operand}
    (h : List.Forall₂ (Operand.Like A) os os') (id id' : Ident) (i : Nat) :
    Results (List.Forall₂ A) (toParsers id i os) (toParsers id' i os') := by
  induction h generalizing i with
  | nil => exact .ok .nil
  | cons ho _ ih =>
    exact (ho.toParser hword _ _).bind fun _ _ hpq => (ih (i + 1)).bind fun _ _ hps =>
      .ok (.cons hpq hps)

/-- Operands that are joined one after another keep what one operator keeps. -/
theorem buildOnto_beside {id id' : Ident} {op : Operator}
    (hF : ∀ id id' t, F (.word id t) (.word id' t)) (hA : ∀ id id' t, A (.word id t) (.word id' t))
    (hjoin : ∀ p q r r', F p q → A r r' → F (op.join id p r) (op.join id' q r'))
    (h : List.Forall₂ (Beside names A) es es') {left left' : Operand} (hleft : left.Like F left')
    (i : Nat) :
    Results (Operand.Like F) (buildOnto names id op left i es)
      (buildOnto names id' op left' i es') := by
  induction h generalizing left left' i with
  | nil =>
    rw [buildOnto,buildOnto]
    exact .ok hleft
  | cons he _ ih =>
    rw [buildOnto,buildOnto]
    refine (he _ _).bind fun right right' hright => ?_
    exact (hleft.apply hF hA hjoin i hright).bind fun _ _ ho => ih ho (i + 1)

end Expr

namespace Grammar

open Peg.Expr

variable {G : Grammar} {w : World} {t : Text} {same wide : Prop} {p q r r' : Parser}

/-- Parsers that can stand for each other also when they are joined to what follows: as the first
part of a sequence, if no value follows that would be told apart, and as the first branch of a
choice. -/
structure Joinable (G : Grammar) (t : Text) (same wide : Prop)
    (p q : Parser) : Prop where
  alike : G.Alike t same p q
  seq {a b : Ident} {rs rs' : List Parser} : List.Forall₂ (G.Alike t same) rs rs' →
    (same → wide → rs.all G.isUnit = true) →
      G.Alike t same (.seq a (p.factors ++ rs)) (.seq b (q.factors ++ rs'))
  choice {rs rs' : List Parser} : List.Forall₂ (G.Alike t same) rs rs' →
    G.Alike t same (.choice (p.branches ++ rs)) (.choice (q.branches ++ rs'))

/-- More than one value is packed by a sequence. -/
def Packs (G : Grammar) (p : Parser) : Prop :=
  ∃ id ps, p = .seq id ps ∧ 1 < ps.countP (!G.isUnit ·)

namespace Joinable

variable {a b : Ident} {ps qs : List Parser}

theorem imp {wide' : Prop} (h : G.Joinable t same wide p q) (hw : wide → wide') :
    G.Joinable t same wide' p q :=
  ⟨h.alike,fun hrs hunit => h.seq hrs fun hs hwide => hunit hs (hw hwide),h.choice⟩

theorem self (G : Grammar) (t : Text) (same wide : Prop) (p : Parser) :
    G.Joinable t same wide p p :=
  ⟨.refl G t same p,fun hrs _ => .seq (List.rel_append (Alike.all_self G t same _) hrs),
    fun hrs => .choice (List.rel_append (Alike.all_self G t same _) hrs)⟩

/-- Nodes that are no sequences and no choices are joined as they are. -/
theorem whole (h : G.Alike t same p q) (hp : p.factors = [p]) (hq : q.factors = [q])
    (hp' : p.branches = [p]) (hq' : q.branches = [q]) : G.Joinable t same wide p q := by
  refine ⟨h,fun hrs _ => ?_,fun hrs => ?_⟩
  · rw [hp,hq]
    exact .seq (.cons h hrs)
  · rw [hp',hq']
    exact .choice (.cons h hrs)

theorem seqOf (h : List.Forall₂ (G.Alike t same) ps qs) :
    G.Joinable t same wide (.seq a ps) (.seq b qs) :=
  ⟨.seq h,fun hrs _ => .seq (List.rel_append h hrs),fun hrs => .choice (.cons (.seq h) hrs)⟩

theorem choiceOf (h : List.Forall₂ (G.Alike t same) ps qs) :
    G.Joinable t same wide (.choice ps) (.choice qs) :=
  ⟨.choice h,fun hrs _ => .seq (.cons (.choice h) hrs),fun hrs => .choice (List.rel_append h hrs)⟩

theorem andThen (h : G.Joinable t same wide p q) (hr : G.Alike t same r r')
    (hunit : same → wide → G.isUnit r = true) :
    G.Joinable t same wide (p.andThen a r) (q.andThen b r') := by
  rw [Parser.andThen_eq,Parser.andThen_eq]
  have hwhole : G.Alike t same (.seq a (p.factors ++ [r])) (.seq b (q.factors ++ [r'])) :=
    h.seq (.cons hr .nil) fun hs hwide => by simp [hunit hs hwide]
  refine ⟨hwhole,fun hrs hall => ?_,fun hrs => .choice (.cons hwhole hrs)⟩
  simp only [Parser.factors,List.append_assoc,List.cons_append,List.nil_append]
  refine h.seq (.cons hr hrs) fun hs hwide => ?_
  rw [List.all_cons,hunit hs hwide,hall hs hwide]
  rfl

theorem orElse (h : G.Joinable t same wide p q) (hr : G.Alike t same r r') :
    G.Joinable t same False (p.orElse r) (q.orElse r') := by
  rw [Parser.orElse_eq,Parser.orElse_eq]
  have hwhole : G.Alike t same (.choice (p.branches ++ [r])) (.choice (q.branches ++ [r'])) :=
    h.choice (.cons hr .nil)
  refine ⟨hwhole,fun hrs _ => .seq (.cons hwhole hrs),fun hrs => ?_⟩
  simp only [Parser.branches,List.append_assoc,List.cons_append,List.nil_append]
  exact h.choice (.cons hr hrs)

/-- A log can stand for its body, but it is no sequence to be gone on with. -/
theorem log {id : Ident} {name : Text} {hook : Option HookId} (h : G.Alike t same p q) :
    G.Joinable t same (G.Packs p) p (.log id q name hook) := by
  have hlog : G.Alike t same p (.log id q name hook) := h.log_right
  refine ⟨hlog,fun {a b rs rs'} hrs hunit => ?_,fun {rs rs'} hrs => ?_⟩
  · rcases p.factors_cases with hp | ⟨m,hp⟩
    · rw [hp]
      exact .seq (.cons hlog hrs)
    · have hnest : G.Alike t same (.seq a (p.factors ++ rs))
          (.seq b (.seq m p.factors :: rs)) := by
        refine .nest fun hs => ?_
        by_cases hpacks : G.Packs p
        · exact .inr (hunit hs hpacks)
        · exact .inl (Nat.le_of_not_lt fun hlt => hpacks ⟨m,p.factors,hp,hlt⟩)
      rw [← hp] at hnest
      exact hnest.trans (.seq (.cons hlog hrs))
  · rcases p.branches_cases with hp | hp
    · rw [hp]
      exact .choice (.cons hlog hrs)
    · have hnest : G.Alike t same (.choice (p.branches ++ rs))
          (.choice (.choice p.branches :: rs)) := .nest_choice
      rw [← hp] at hnest
      exact hnest.trans (.choice (.cons hlog hrs))

theorem terminal (id id' : Ident) (k : Terminal) :
    G.Joinable t same wide (.terminal id k) (.terminal id' k) :=
  .whole (.of_resembles (.terminal fun _ _ => rfl) nofun nofun) rfl rfl rfl rfl

theorem word (id id' : Ident) (u : Text) : G.Joinable t same wide (.word id u) (.word id' u) :=
  terminal id id' (.ofWord u)

end Joinable

/-- Two expressions are built into parsers that can stand for each other, also as left operands. -/
abbrev Builds (G : Grammar) (t : Text) (names : Names) (same wide : Prop) :
    Expr → Expr → Prop :=
  Expr.Beside names (G.Joinable t same wide)

/-- Wherever it is built, an expression is built into a unit parser, if into a parser. -/
def Voiceless (G : Grammar) (names : Names) (e : Expr) : Prop :=
  ∀ id p, e.build names id = .ok (.parser p) → G.isUnit p = true

namespace Builds

variable {names : Names} {e e' s s' : Expr} {es es' : List Expr}

theorem alike (h : G.Builds t names same wide e e') : e.Beside names (G.Alike t same) e' :=
  h.imp fun _ _ hpq => hpq.alike

theorem alike_word (id id' : Ident) (u : Text) : G.Alike t same (.word id u) (.word id' u) := by
  have hword : G.Joinable t same True (.word id u) (.word id' u) := .word id id' u
  exact hword.alike

theorem product (h : G.Builds t names same wide e e')
    (hes : List.Forall₂ (Expr.Beside names (G.Alike t same)) es es')
    (hunit : same → wide → ∀ x ∈ es, G.Voiceless names x) :
    G.Builds t names same wide (.product (e :: es)) (.product (e' :: es')) := by
  intro id id'
  rw [build,build]
  refine (h _ _).bind fun left left' hleft => ?_
  have hparts : List.Forall₂ (Expr.Beside names fun r r' =>
      G.Alike t same r r' ∧ (same → wide → G.isUnit r = true)) es es' :=
    forall₂_imp_mem hes fun x hx y _ hxy =>
      hxy.and fun id p hp hs hwide => hunit hs hwide x hx id p hp
  refine buildOnto_beside Joinable.word (fun id id' t => ⟨alike_word id id' t,fun _ _ => ?_⟩)
    (fun p q r r' hpq hr => hpq.andThen hr.1 hr.2) hparts hleft 1
  exact isUnit_terminal _ _

/-- A sum of one operand is that operand; a sum of more is a choice. -/
theorem sum (h : G.Builds t names same wide e e')
    (hes : List.Forall₂ (Expr.Beside names (G.Alike t same)) es es') :
    G.Builds t names same (wide ∧ es = []) (.sum (e :: es)) (.sum (e' :: es')) := by
  intro id id'
  rw [build,build]
  refine (h _ _).bind fun left left' hleft => ?_
  cases hes with
  | nil =>
    rw [buildOnto,buildOnto]
    exact .ok (hleft.imp fun p q hpq => hpq.imp fun hwide => ⟨hwide,rfl⟩)
  | @cons x x' xs xs' hx hxs =>
    rw [buildOnto,buildOnto]
    have hplus (p q r r' : Parser) (hpq : G.Joinable t same wide p q)
        (hr : G.Alike t same r r') : G.Joinable t same (wide ∧ x :: xs = [])
          (Operator.plus.join id p r) (Operator.plus.join id' q r') :=
      (hpq.orElse hr).imp False.elim
    refine (hx _ _).bind fun right right' hright => ?_
    refine (hleft.apply Joinable.word alike_word hplus 1 hright).bind fun o o' ho => ?_
    exact buildOnto_beside Joinable.word alike_word
      (fun p q r r' hpq hr => (hpq.orElse hr).imp False.elim) hxs ho 2

theorem seqOf (hes : List.Forall₂ (Expr.Beside names (G.Alike t same)) es es') :
    G.Builds t names same wide (.seqOf es) (.seqOf es') := by
  intro id id'
  rw [build,build]
  refine (buildAll_beside hes id id' 0).bind fun os os' hos => ?_
  exact (toParsers_beside alike_word hos id id' 0).bind fun ps qs hps =>
    .ok (.parser (.seqOf hps))

theorem choiceOf (hes : List.Forall₂ (Expr.Beside names (G.Alike t same)) es es') :
    G.Builds t names same wide (.choiceOf es) (.choiceOf es') := by
  intro id id'
  rw [build,build]
  refine (buildAll_beside hes id id' 0).bind fun os os' hos => ?_
  exact (toParsers_beside alike_word hos id id' 0).bind fun ps qs hps =>
    .ok (.parser (.choiceOf hps))

theorem not_alike (h : G.Alike t False p q) : G.Joinable t same wide (.not p) (.not q) :=
  .whole (.of_resembles (.not h) nofun nofun) rfl rfl rfl rfl

theorem not (h : e.Beside names (G.Alike t False) e') :
    G.Builds t names same wide (.not e) (.not e') := by
  intro id id'
  rw [build,build]
  refine (h _ _).bind fun o o' ho => (ho.toParser alike_word _ _).bind fun p q hpq => ?_
  exact .ok (.parser (not_alike hpq))

theorem invert (h : e.Beside names (G.Alike t False) e') :
    G.Builds t names same wide (.invert e) (.invert e') := by
  intro id id'
  rw [build,build]
  exact (h _ _).bind fun o o' ho => ho.inverted fun p q hpq => not_alike hpq

theorem map {f : Value → Except Fault Value} {name : Text}
    (h : e.Beside names (G.Alike t True) e') :
    G.Builds t names same wide (.map e f name) (.map e' f name) := by
  intro id id'
  rw [build,build]
  refine Operand.Like.method (h _ _) fun p q hpq => ?_
  refine .whole (.of_resembles (.map hpq fun v v' (hv : True → v = v') => ?_) nofun nofun)
    rfl rfl rfl rfl
  obtain rfl := hv trivial
  exact .refl fun _ _ _ => rfl

theorem filter {test : Value → Except Fault Bool} {name : Text}
    (h : e.Beside names (G.Alike t True) e') :
    G.Builds t names same wide (.filter e test name) (.filter e' test name) := by
  intro id id'
  rw [build,build]
  exact Operand.Like.method (h _ _) fun p q hpq =>
    .whole (.of_resembles (.filter hpq) nofun nofun) rfl rfl rfl rfl

theorem capture (h : e.Beside names (G.Alike t False) e') :
    G.Builds t names same wide (.capture e) (.capture e') := by
  intro id id'
  rw [build,build]
  exact Operand.Like.method (h _ _) fun p q hpq =>
    .whole (.of_resembles (.capture hpq) nofun nofun) rfl rfl rfl rfl

theorem opt (h : e.Beside names (G.Alike t same) e') :
    G.Builds t names same wide (.opt e) (.opt e') := by
  intro id id'
  rw [build,build]
  exact Operand.Like.method (h _ _) fun p q hpq =>
    .whole (.of_resembles (.opt hpq) nofun nofun) rfl rfl rfl rfl

theorem cut (h : e.Beside names (G.Alike t same) e') :
    G.Builds t names same wide (.cut e) (.cut e') := by
  intro id id'
  rw [build,build]
  exact Operand.Like.method (h _ _) fun p q hpq =>
    .whole (.of_resembles (.cut hpq) nofun nofun) rfl rfl rfl rfl

section Repetitions

variable {least : Quantity} {most : Option Quantity}

/-- Repetitions of parsers that can stand for each other, whose separators can, where their values
are not looked at. -/
theorem between (hpq : G.Alike t same p q) {gap gap' : Option Parser}
    (hgap : Option.Rel (G.Alike t False) gap gap') (id id' : Ident) :
    Results (Operand.Like (G.Joinable t same wide))
      ((Parser.between id p least most gap).map .parser)
      ((Parser.between id' q least most gap').map .parser) := by
  unfold Parser.between
  by_cases hleast : least.below 0 = true
  · rw [if_pos hleast,if_pos hleast]
    exact .error _
  · by_cases hmost : most.any (·.below least) = true
    · rw [if_neg hleast,if_neg hleast,if_pos hmost,if_pos hmost]
      exact .error _
    · rw [if_neg hleast,if_neg hleast,if_neg hmost,if_neg hmost]
      refine .ok (.parser (.whole (.of_resembles (.rep hpq ?_) nofun nofun) rfl rfl rfl rfl))
      cases hgap with
      | none => exact .of_resembles (.terminal fun _ _ => rfl) nofun nofun
      | some h => exact h

theorem separator {o o' : Operand} (h : o.Like (G.Alike t False) o') (id id' : Ident) :
    Results (Option.Rel (G.Alike t False)) (o.separator id) (o'.separator id') := by
  cases h with
  | parser h => exact .ok (.some h)
  | text t => exact .ok (.some (alike_word id id' t))
  | plain v =>
    cases v with
    | none => exact .ok .none
    | _ => exact .error _

theorem rep (h : e.Beside names (G.Alike t same) e') :
    G.Builds t names same wide (.rep e least most none) (.rep e' least most none) := by
  intro id id'
  rw [build,build]
  exact (h _ _).bind fun o o' ho => ho.receiver.bind fun p q hpq => between hpq .none id id'

theorem repWith (h : e.Beside names (G.Alike t same) e')
    (hs : s.Beside names (G.Alike t False) s') :
    G.Builds t names same wide (.rep e least most (some s)) (.rep e' least most (some s')) := by
  intro id id'
  rw [build,build]
  refine (h _ _).bind fun o o' ho => ho.receiver.bind fun p q hpq => ?_
  refine (hs _ _).bind fun o o' ho => (separator ho _ _).bind fun gap gap' hgap => ?_
  exact between hpq hgap id id'

end Repetitions

theorem log {name : Text} {key : Option Text} (h : e.Beside names (G.Alike t same) e') :
    G.Builds t names same wide (.log e name key) (.log e' name key) := by
  intro id id'
  rw [build,build]
  refine (h _ _).bind fun o o' ho => ho.receiver.bind fun p q hpq => ?_
  have hlog (hook : Option HookId) :
      G.Joinable t same wide (.logged id p name hook) (.logged id' q name hook) := by
    refine .whole (.of_resembles (.log hpq) nofun ?_) rfl rfl rfl rfl
    rintro _ _ _ _ _ _ _ _ hp hq
    cases hp
    cases hq
    rfl
  cases key with
  | none => exact .ok (.parser (hlog none))
  | some key =>
    cases hkey : names.hook key with
    | some hook =>
      simp only [hkey]
      exact .ok (.parser (hlog (some hook)))
    | none =>
      simp only [hkey]
      exact .error _

theorem ref (key : Text) : G.Builds t names same wide (.ref key) (.ref key) := by
  intro id id'
  rw [build,build]
  cases names.parser key with
  | some p => exact .ok (.parser (.self G t same wide p))
  | none => exact .error _

theorem char (u : Text) : G.Builds t names same wide (.char u) (.char u) := by
  intro id id'
  rw [build,build]
  cases u with
  | nil => exact .error _
  | cons x u =>
    cases u with
    | nil => exact .ok (.parser (.terminal id id' _))
    | cons => exact .error _

theorem runOf (chars : Text) (least : Int) :
    G.Builds t names same wide (.runOf chars least) (.runOf chars least) := by
  intro id id'
  rw [build,build,Parser.runAtLeast,Parser.runAtLeast]
  by_cases hleast : least < 0
  · rw [if_pos hleast,if_pos hleast]
    exact .error _
  · rw [if_neg hleast,if_neg hleast]
    exact .ok (.parser (.terminal id id' _))

theorem regex (source : Text) (flags : Pattern.Flags) :
    G.Builds t names same wide (.regex source flags) (.regex source flags) := by
  intro id id'
  rw [build,build]
  cases names.matcher flags source with
  | some p => exact .ok (.parser (.terminal id id' _))
  | none => exact .error _

/-- What is built without flat maps is built alike everywhere. -/
theorem of_fixed (he : e.Fixed) : G.Builds t names same False e e := by
  have hall {es : List Expr} {same : Prop} (hes : ∀ x ∈ es, ∀ {same : Prop},
      G.Builds t names same False x x) :
      List.Forall₂ (Expr.Beside names (G.Alike t same)) es es :=
    List.forall₂_same.mpr fun x hx => (hes x hx).alike
  induction he generalizing same with
  | text => exact fun _ _ => .ok (.text _)
  | plain => exact fun _ _ => .ok (.plain _)
  | ref => exact .ref _
  | given => exact fun _ _ => .ok (.parser (.self G t same False _))
  | terminal => exact fun id id' => .ok (.parser (.terminal id id' _))
  | char => exact .char _
  | runOf => exact .runOf _ _
  | regex => exact .regex _ _
  | @product es _ ih =>
    cases es with
    | nil => exact fun _ _ => .error _
    | cons e es =>
      obtain ⟨he,hes⟩ := List.forall_mem_cons.mp ih
      exact .product he (hall hes) fun _ h => h.elim
  | @sum es _ ih =>
    cases es with
    | nil => exact fun _ _ => .error _
    | cons e es =>
      obtain ⟨he,hes⟩ := List.forall_mem_cons.mp ih
      exact (sum he (hall hes)).imp fun p q hpq => hpq.imp And.left
  | seqOf _ ih => exact .seqOf (hall ih)
  | choiceOf _ ih => exact .choiceOf (hall ih)
  | not _ ih => exact .not ih.alike
  | invert _ ih => exact .invert ih.alike
  | map _ ih => exact .map ih.alike
  | filter _ ih => exact .filter ih.alike
  | capture _ ih => exact .capture ih.alike
  | opt _ ih => exact .opt ih.alike
  | cut _ ih => exact .cut ih.alike
  | rep _ ih => exact .rep ih.alike
  | repWith _ _ ih ihs => exact .repWith ih.alike ihs.alike
  | log _ ih => exact .log ih.alike

end Builds

/-- The second expression is the first with a log around one of its parts, which is no word and no
value.  The first index says whether the values of the expressions are looked at; the second,
whether the log hides a sequence of more than one value from what is joined next. -/
inductive Inserts (G : Grammar) (names : Names) : Prop → Prop → Expr → Expr → Prop
  | here {same : Prop} {e : Expr} {name : Text} {key : Option Text} : e.Fixed →
    (∀ id o, e.build names id = .ok o → ∃ p, o = .parser p) → (∀ k ∈ key, (names.hook k).isSome) →
      Inserts G names same (∃ id p, e.build names id = .ok (.parser p) ∧ G.Packs p) e
        (.log e name key)
  | firstFactor {same wide : Prop} {e e' : Expr} {es : List Expr} :
    Inserts G names same wide e e' → (∀ x ∈ es, x.Fixed) →
      (same → wide → ∀ x ∈ es, G.Voiceless names x) →
        Inserts G names same wide (.product (e :: es)) (.product (e' :: es))
  | factor {same wide : Prop} {x e e' : Expr} {es fs : List Expr} :
    Inserts G names same wide e e' → (∀ y ∈ x :: es ++ fs, y.Fixed) →
      Inserts G names same False (.product (x :: es ++ e :: fs))
        (.product (x :: es ++ e' :: fs))
  | firstTerm {same wide : Prop} {e e' : Expr} {es : List Expr} :
    Inserts G names same wide e e' → (∀ x ∈ es, x.Fixed) →
      Inserts G names same (wide ∧ es = []) (.sum (e :: es)) (.sum (e' :: es))
  | term {same wide : Prop} {x e e' : Expr} {es fs : List Expr} :
    Inserts G names same wide e e' → (∀ y ∈ x :: es ++ fs, y.Fixed) →
      Inserts G names same False (.sum (x :: es ++ e :: fs)) (.sum (x :: es ++ e' :: fs))
  | part {same wide : Prop} {e e' : Expr} {es fs : List Expr} :
    Inserts G names same wide e e' → (∀ y ∈ es ++ fs, y.Fixed) →
      Inserts G names same False (.seqOf (es ++ e :: fs)) (.seqOf (es ++ e' :: fs))
  | branch {same wide : Prop} {e e' : Expr} {es fs : List Expr} :
    Inserts G names same wide e e' → (∀ y ∈ es ++ fs, y.Fixed) →
      Inserts G names same False (.choiceOf (es ++ e :: fs)) (.choiceOf (es ++ e' :: fs))
  | not {same wide : Prop} {e e' : Expr} : Inserts G names False wide e e' →
    Inserts G names same False (.not e) (.not e')
  | invert {same wide : Prop} {e e' : Expr} : Inserts G names False wide e e' →
    Inserts G names same False (.invert e) (.invert e')
  | map {same wide : Prop} {e e' : Expr} {f : Value → Except Fault Value} {name : Text} :
    Inserts G names True wide e e' →
      Inserts G names same False (.map e f name) (.map e' f name)
  | filter {same wide : Prop} {e e' : Expr} {test : Value → Except Fault Bool} {name : Text} :
    Inserts G names True wide e e' →
      Inserts G names same False (.filter e test name) (.filter e' test name)
  | capture {same wide : Prop} {e e' : Expr} : Inserts G names False wide e e' →
    Inserts G names same False (.capture e) (.capture e')
  | opt {same wide : Prop} {e e' : Expr} : Inserts G names same wide e e' →
    Inserts G names same False (.opt e) (.opt e')
  | cut {same wide : Prop} {e e' : Expr} : Inserts G names same wide e e' →
    Inserts G names same False (.cut e) (.cut e')
  | rep {same wide : Prop} {e e' : Expr} {least : Quantity} {most : Option Quantity} :
    Inserts G names same wide e e' →
      Inserts G names same False (.rep e least most none) (.rep e' least most none)
  | element {same wide : Prop} {e e' s : Expr} {least : Quantity} {most : Option Quantity} :
    Inserts G names same wide e e' → s.Fixed →
      Inserts G names same False (.rep e least most (some s)) (.rep e' least most (some s))
  | separator {same wide : Prop} {e s s' : Expr} {least : Quantity} {most : Option Quantity} :
    e.Fixed → Inserts G names False wide s s' →
      Inserts G names same False (.rep e least most (some s)) (.rep e least most (some s'))
  | log {same wide : Prop} {e e' : Expr} {name : Text} {key : Option Text} :
    Inserts G names same wide e e' →
      Inserts G names same False (.log e name key) (.log e' name key)

namespace Inserts

variable {names : Names} {e e' : Expr}

theorem builds_here {name : Text} {key : Option Text} (he : e.Fixed)
    (hparser : ∀ id o, e.build names id = .ok o → ∃ p, o = .parser p)
    (hkey : ∀ k ∈ key, (names.hook k).isSome) :
    G.Builds t names same (∃ id p, e.build names id = .ok (.parser p) ∧ G.Packs p) e
      (.log e name key) := by
  intro id id'
  have hcopies := (Builds.of_fixed he : G.Builds t names same False e e) id (.part 0 id')
  rw [build]
  cases hx : e.build names id with
  | error fault =>
    rw [hx] at hcopies
    generalize e.build names (.part 0 id') = y at hcopies
    cases hcopies
    exact .error fault
  | ok o =>
    obtain ⟨p,rfl⟩ := hparser id o hx
    rw [hx] at hcopies
    generalize e.build names (.part 0 id') = y at hcopies
    cases hcopies with
    | ok ho =>
      cases ho with
      | @parser p q hpq =>
        have hlog (hook : Option HookId) : G.Joinable t same
            (∃ id p, e.build names id = .ok (.parser p) ∧ G.Packs p) p (.logged id' q name hook) :=
          (Joinable.log hpq.alike).imp fun hp => ⟨id,p,hx,hp⟩
        cases key with
        | none => exact .ok (.parser (hlog none))
        | some key =>
          obtain ⟨hook,hfound⟩ := Option.isSome_iff_exists.mp (hkey key rfl)
          change Results _ _ (Except.bind (.ok q) fun q => _)
          simp only [Except.bind,hfound]
          exact .ok (.parser (hlog (some hook)))

/-- An expression and the same one with a log inserted are built side by side. -/
theorem builds (h : G.Inserts names same wide e e') : G.Builds t names same wide e e' := by
  have hfixed {es : List Expr} {same : Prop} (hes : ∀ x ∈ es, x.Fixed) :
      List.Forall₂ (Expr.Beside names (G.Alike t same)) es es :=
    List.forall₂_same.mpr fun x hx => (Builds.of_fixed (hes x hx)).alike
  have hamong {es fs : List Expr} {e e' : Expr} {same wide : Prop}
      (he : G.Builds t names same wide e e') (hes : ∀ x ∈ es ++ fs, x.Fixed) :
      List.Forall₂ (Expr.Beside names (G.Alike t same)) (es ++ e :: fs) (es ++ e' :: fs) :=
    List.rel_append (hfixed fun x hx => hes x (by simp [hx]))
      (.cons he.alike (hfixed fun x hx => hes x (by simp [hx])))
  induction h with
  | here he hparser hkey => exact builds_here he hparser hkey
  | firstFactor _ hes hunit ih => exact .product ih (hfixed hes) hunit
  | factor _ hes ih =>
    obtain ⟨hx,hes⟩ := List.forall_mem_cons.mp hes
    exact .product (.of_fixed hx) (hamong ih hes) fun _ h => h.elim
  | firstTerm _ hes ih => exact .sum ih (hfixed hes)
  | term _ hes ih =>
    obtain ⟨hx,hes⟩ := List.forall_mem_cons.mp hes
    exact (Builds.sum (.of_fixed hx) (hamong ih hes)).imp fun p q hpq => hpq.imp And.left
  | part _ hes ih => exact .seqOf (hamong ih hes)
  | branch _ hes ih => exact .choiceOf (hamong ih hes)
  | not _ ih => exact .not ih.alike
  | invert _ ih => exact .invert ih.alike
  | map _ ih => exact .map ih.alike
  | filter _ ih => exact .filter ih.alike
  | capture _ ih => exact .capture ih.alike
  | opt _ ih => exact .opt ih.alike
  | cut _ ih => exact .cut ih.alike
  | rep _ ih => exact .rep ih.alike
  | element _ hs ih => exact .repWith ih.alike (Builds.of_fixed hs).alike
  | separator he _ ih => exact .repWith (Builds.of_fixed he).alike ih.alike
  | log _ ih => exact .log ih.alike

theorem toParser (h : G.Inserts names same wide e e') (id id' : Ident) :
    Results (G.Joinable t same wide) (e.toParser names id) (e'.toParser names id') :=
  (h.builds id id').bind fun _ _ ho => ho.receiver

end Inserts

/-- A log, inserted anywhere in an expression that is built without flat maps, makes no difference
where no hook raises and no value is told apart by it: both expressions raise the same fault when
they are built, or their parsers parse every text alike.  Where a supplier refuses at first, this is
so of what returns. -/
theorem parse_with_log {refusals : RuleId → Nat} (hw : G.Supplied w refusals)
    (hh : ∀ hook, (w.hook hook).Calm) {names : Names} {e e' : Expr}
    (h : G.Inserts names True wide e e') (id id' : Ident) :
    Results (fun p q => G.Has p → G.Has q → ∀ c i, ∃ a b,
        G.Promises w refusals c p i a ∧ G.Promises w refusals c q i b ∧ a.Like EndsAlike b)
      (e.toParser names id) (e'.toParser names id') := by
  -- how expressions are built does not depend on the text
  have hbuilt : Results (G.Joinable [] True wide) _ _ := h.toParser id id'
  refine hbuilt.imp fun p q hp hq _ hhas hhas' c i => ?_
  have hjoinable : Results (G.Joinable c.text True wide) _ _ := h.toParser id id'
  rw [hp,hq] at hjoinable
  cases hjoinable with
  | ok hpq => exact parse_alike hw hh hhas hhas' hpq.alike i

/-- Two letters, captured one after the other. -/
def letterPair : Expr := .product [.capture (.char ['a']),.capture (.char ['b'])]

/-- What a pair of letters is made of where it is built. -/
def letterPair.parts (id : Ident) : List Parser :=
  [.capture (.terminal (.part 0 (.part 0 id)) (.char 'a')),
    .capture (.terminal (.part 0 (.part 1 id)) (.char 'b'))]

/-- A third letter. -/
def letterPair.last (id : Ident) : Parser := .terminal (.part 1 id) (.char 'c')

/-- A pair of letters before a third one, and the same with a log around the pair. -/
def letterPairs : Grammar where
  rules := []
  body _ := default
  parts
    | .statement 0 =>
      some (letterPair.parts (.part 0 (.statement 0)) ++ [letterPair.last (.statement 0)])
    | .statement 1 => some [pair,letterPair.last (.statement 1)]
    | .part 0 (.part 0 (.statement 1)) => some (letterPair.parts (.part 0 (.part 0 (.statement 1))))
    | _ => none
  closed := nofun
where
  pair : Parser := .log (.part 0 (.statement 1)) (.seq (.part 0 (.part 0 (.statement 1)))
    (letterPair.parts (.part 0 (.part 0 (.statement 1))))) "pair".toList (some .standard)

/-- Around a pair with no value after it a log makes no difference. -/
theorem parse_letterPair_with_log :
    let w : World := ⟨fun _ _ => .error .notReady,fun _ => .recording none,fun n => n⟩
    let names : Names := ⟨fun _ => none,fun _ => some .standard,fun _ _ => none⟩
    let logged : Expr := .log letterPair "pair".toList (some "hook".toList)
    ∃ p q, (Expr.product [letterPair,.char ['c']]).toParser names (.statement 0) = .ok p ∧
      (Expr.product [logged,.char ['c']]).toParser names (.statement 1) = .ok q ∧
      (Parsing.parse w 9 p "abc".toList 0 none none {}).1 =
        .value (.success (.tuple [.str ['a'],.str ['b']]) 3 false) ∧
      ∃ a b, letterPairs.Promises w (fun _ => 0) ⟨"abc".toList,none,none⟩ p 0 a ∧
        letterPairs.Promises w (fun _ => 0) ⟨"abc".toList,none,none⟩ q 0 b ∧ a.Like EndsAlike b := by
  intro w names logged
  have hfixed : letterPair.Fixed := .product
    (List.forall_mem_cons.mpr ⟨.capture .char,List.forall_mem_singleton.mpr (.capture .char)⟩)
  have hlast (id : Ident) : letterPairs.Has (letterPair.last id) := .terminal
  have hletters (id : Ident) : ∀ p ∈ letterPair.parts id, letterPairs.Has p :=
    List.forall_mem_cons.mpr ⟨.capture .terminal,List.forall_mem_singleton.mpr (.capture .terminal)⟩
  have hpair : letterPairs.Has letterPairs.pair := .log (.seq rfl (hletters _))
  have hinserts : letterPairs.Inserts names True
      (∃ id p, letterPair.build names id = .ok (.parser p) ∧ letterPairs.Packs p)
      (.product [letterPair,.char ['c']]) (.product [logged,.char ['c']]) := by
    refine .firstFactor (.here hfixed ?_ fun _ _ => rfl) (List.forall_mem_singleton.mpr .char)
      fun _ _ => ?_
    · rintro id _ ⟨⟩
      exact ⟨_,rfl⟩
    · refine List.forall_mem_singleton.mpr ?_
      rintro id _ ⟨⟩
      exact isUnit_terminal _ _
  have hplain : letterPairs.Has (.seq (.statement 0)
      (letterPair.parts (.part 0 (.statement 0)) ++ [letterPair.last (.statement 0)])) := by
    refine .seq rfl fun p hp => ?_
    rcases List.mem_append.mp hp with hp | hp
    · exact hletters _ p hp
    · exact List.mem_singleton.mp hp ▸ hlast _
  have hlogged : letterPairs.Has (.seq (.statement 1)
      [letterPairs.pair,letterPair.last (.statement 1)]) :=
    .seq rfl (List.forall_mem_cons.mpr ⟨hpair,List.forall_mem_singleton.mpr (hlast _)⟩)
  have hsupplied : letterPairs.Supplied w fun _ => 0 := by simp [letterPairs,Supplied]
  have hparse := parse_with_log hsupplied (fun _ => Hook.calm_recording) hinserts (.statement 0)
    (.statement 1)
  cases hparse with
  | ok hparse => exact ⟨_,_,rfl,rfl,rfl,hparse hplain hlogged ⟨"abc".toList,none,none⟩ 0⟩

/-- A log around a pair keeps it a tuple of its own where a third value follows, and a log can push
a rule so deep that its hook, which raises, is not told of it. -/
theorem inserted_log_told_apart :
    let hook : HookId → Hook := fun
      | .standard => .recording none
      | .numbered _ => .recording (some .enter)
    let w : World := ⟨fun _ _ => .ok (.terminal (.named "letter") (.char 'a')),hook,fun n => n⟩
    let rule : Parser := .rule (.named "rule") "rule".toList
    let names : Names := ⟨fun _ => some rule,fun _ => some .standard,fun _ _ => none⟩
    let last : Expr := .capture (.char ['c'])
    let logged (e : Expr) : Expr := .log e "name".toList (some "hook".toList)
    let builds (e : Expr) (n : Nat) (p : Parser) : Prop := e.toParser names (.statement n) = .ok p
    (w.hook .standard).Calm ∧
      (∃ p q, builds (.product [letterPair,last]) 0 p ∧
        builds (.product [logged letterPair,last]) 1 q ∧
          (Parsing.parse w 9 p "abc".toList 0 none none {}).1 =
            .value (.success (.tuple [.str ['a'],.str ['b'],.str ['c']]) 3 false) ∧
          (Parsing.parse w 9 q "abc".toList 0 none none {}).1 =
            .value (.success (.tuple [.tuple [.str ['a'],.str ['b']],.str ['c']]) 3 false)) ∧
      ∃ p q, builds (.ref "rule".toList) 0 p ∧ builds (logged (.ref "rule".toList)) 1 q ∧
        (Parsing.parse w 9 p ['a'] 0 (some (.numbered 0)) (some ⟨true,some 0⟩) {}).1 =
          .raised (.raisedByHook "enter".toList) ∧
        (Parsing.parse w 9 q ['a'] 0 (some (.numbered 0)) (some ⟨true,some 0⟩) {}).1 =
          .value (.success .none 1 false) := by
  intro hook w rule names last logged builds
  exact ⟨Hook.calm_recording,⟨_,_,rfl,rfl,rfl,rfl⟩,_,_,rfl,rfl,rfl,rfl⟩

end Grammar
end Peg
