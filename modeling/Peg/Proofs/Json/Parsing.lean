import Peg.Proofs.Json.Values
import Peg.Proofs.Kinds

/-! The grammar for JSON texts, against its language.
Main statement: a parse gives the value that a text stands for, at the end of the text, and fails
on a text that stands for none; it never raises. -/
namespace Peg.Samples.Json

open Grammar

variable {t u rest : Text} {i : Int}

/-! ## Derivable texts are read -/

/-- The characters that may follow a value and the blanks after it. -/
def closers : Text := ",]\x7d".toList

/-- A text is read, wherever it stands before the end or one of these characters. -/
def Reads (p : Parser) (follow u : Text) (v : Value) : Prop :=
  ∀ t i rest, At t i (u ++ rest) → (∀ c ∈ rest.head?, c ∈ follow) →
    grammar.Ends t p i (.value (.success v (i + u.length) false))

/-- What the rounds of a group have gathered when this text has been read from here. -/
def gathered (i : Int) (u : Text) (vs : List Value) (cut : Bool) : Tally :=
  ⟨vs.reverse,vs.length,cut,i + u.length⟩

/-- The elements of a group are read, on the way to whatever its rounds end with. -/
def ReadsAll (g : Group) (u : Text) (vs : List Value) : Prop :=
  ∀ t i rest, At t i (u ++ rest) → (∀ c ∈ rest.head?, c ∈ closers) → ∀ r,
    grammar.EndsRounds t g.element g.comma 0 none (gathered i u vs false) r →
      grammar.EndsRounds t g.element g.comma 0 none ⟨[],0,false,i⟩ r

/-- What is shown of a derivable text. -/
def Readable (u : Text) : Form → Prop
  | .value v => Reads core (blanks ++ closers) u v
  | .padded v => Reads value closers u v
  | .member key v => Reads pair closers u (entry (key,v))
  | .items vs => ReadsAll .array u vs
  | .members es => ReadsAll .object u (es.map entry)

theorem not_blank_of_mem_closers {c : Char} (h : c ∈ closers) : c ∉ blanks := by
  have ha : ∀ c ∈ closers, c ∉ blanks := forall_mem_of_all (by decide)
  exact ha c h

theorem not_numeral_of_follow {c : Char} (h : c ∈ blanks ++ closers) : c ∉ numerals := by
  have ha : ∀ c ∈ blanks ++ closers, c ∉ numerals := forall_mem_of_all (by decide)
  exact ha c h

theorem closing_mem_closers (g : Group) : g.closing ∈ closers := by
  cases g <;> decide

theorem closing_not_mem_first (g : Group) (k : Kind) : g.closing ∉ k.first := by
  cases g <;> cases k <;> decide

theorem ends_comma {g : Group} (h : At t i (',' :: u)) :
    grammar.Ends t g.comma i (.value (.success .none (i + 1) false)) := by
  cases g <;> exact ends_char h

theorem fails_comma {g : Group} (h : At t i u) (hu : ∀ c ∈ u.head?, c ≠ ',') :
    grammar.Fails t g.comma i false := by
  cases g <;> exact fails_char h hu

/-- A comma and an element make one more round. -/
theorem rounds_next {g : Group} {u' : Text} {v : Value} {vs : List Value} {cut c : Bool}
    {r : Answer Tally} (h : At t i (u ++ ',' :: (u' ++ rest))) (hvs : vs ≠ []) (hu' : u' ≠ [])
    (he : grammar.Ends t g.element (i + u.length + 1)
      (.value (.success v (i + u.length + 1 + u'.length) c)))
    (hr : grammar.EndsRounds t g.element g.comma 0 none
      (gathered i (u ++ ',' :: u') (vs ++ [v]) (cut || c)) r) :
    grammar.EndsRounds t g.element g.comma 0 none (gathered i u vs cut) r := by
  have hlen := h.add_length
  have hpos := List.length_pos_iff.mpr hu'
  have hcount : vs.length ≠ 0 := mt List.length_eq_zero_iff.mp hvs
  have hgap : grammar.EndsGap t g.comma (gathered i u vs cut)
      (.value (.success .none (i + u.length + 1) false)) := .later hcount (ends_comma h.skip)
  simp only [List.length_append,List.length_cons] at hlen
  refine .more rfl hgap he ?_ (by omega) ?_
  · simp only [gathered]
    omega
  · have hstop : i + (u ++ ',' :: u').length = i + u.length + 1 + u'.length := by
      simp
      omega
    rw [gathered,hstop] at hr
    simpa [gathered] using hr

/-- The first element makes the first round. -/
theorem rounds_first {g : Group} {v : Value} {c : Bool} {r : Answer Tally}
    (h : At t i (u ++ rest)) (hu : u ≠ [])
    (he : grammar.Ends t g.element i (.value (.success v (i + u.length) c)))
    (hr : grammar.EndsRounds t g.element g.comma 0 none (gathered i u [v] c) r) :
    grammar.EndsRounds t g.element g.comma 0 none ⟨[],0,false,i⟩ r := by
  have hlen := h.add_length
  have hpos := List.length_pos_iff.mpr hu
  rw [List.length_append] at hlen
  have hgap : grammar.EndsGap t g.comma ⟨[],0,false,i⟩ (.value (.success .none i false)) :=
    .first rfl
  exact .more rfl hgap he (by dsimp only; omega) (by omega) hr

/-- Without a comma the rounds are over. -/
theorem rounds_end {g : Group} {vs : List Value} {cut : Bool} (h : At t i (u ++ rest))
    (hvs : vs ≠ []) (hr : ∀ c ∈ rest.head?, c ≠ ',') :
    grammar.EndsRounds t g.element g.comma 0 none (gathered i u vs cut)
      (.value (gathered i u vs cut)) := by
  have hcount : vs.length ≠ 0 := mt List.length_eq_zero_iff.mp hvs
  obtain ⟨j,cause,hf⟩ := fails_comma (g := g) h.skip hr
  have hend : grammar.EndsRounds t g.element g.comma 0 none (gathered i u vs cut)
      (.value { gathered i u vs cut with cut := cut || false }) :=
    .noGap rfl (.later hcount hf)
  simpa [gathered] using hend

theorem ends_elements {g : Group} {vs : List Value} {cut : Bool}
    (h : grammar.EndsRounds t g.element g.comma 0 none ⟨[],0,false,i⟩
      (.value (gathered i u vs cut))) :
    grammar.Ends t g.elements i (.value (.success (.list vs) (i + u.length) cut)) := by
  have hrep : grammar.Ends t g.elements i
      (.value (.success (.list vs.reverse.reverse) (i + u.length) cut)) := by
    have ht : (gathered i u vs cut).values = vs.reverse := rfl
    rw [← ht]
    cases g with
    | array => exact .rep h (Nat.zero_le _)
    | object => exact .rep h (Nat.zero_le _)
  rwa [List.reverse_reverse] at hrep

theorem ReadsAll.one {g : Group} {v : Value} (h : Reads g.element closers u v) (hu : u ≠ []) :
    ReadsAll g u [v] :=
  fun t i rest hat hr _ hend => rounds_first hat hu (h t i rest hat hr) hend

theorem ReadsAll.next {g : Group} {u' : Text} {v : Value} {vs : List Value}
    (h : ReadsAll g u vs) (hvs : vs ≠ []) (h' : Reads g.element closers u' v) (hu' : u' ≠ []) :
    ReadsAll g (u ++ ',' :: u') (vs ++ [v]) := by
  intro t i rest hat hr r hend
  have hat' : At t i (u ++ ',' :: (u' ++ rest)) := by simpa using hat
  have he := h' t _ rest hat'.skip.next hr
  exact h t i _ hat' (by simp [closers]) r (rounds_next hat' hvs hu' he hend)

/-- A group is read from its opening bracket to its closing one. -/
theorem reads_group {g : Group} {k : Kind} {b : Text} {v : Value} {vs : List Value}
    {follow : Text} (hk : g.parser = k.parser) (hc : g.opening ∈ k.first) (hb : Blank b)
    (hu : ∀ t i rest, At t i (u ++ (b ++ g.closing :: rest)) →
      grammar.Ends t g.elements i (.value (.success (.list vs) (i + u.length) false)))
    (hv : g.build (.list vs) = .ok v) :
    Reads core follow (g.opening :: (u ++ (b ++ [g.closing]))) v := by
  intro t i rest hat _
  have hat' : At t i (g.opening :: (u ++ (b ++ g.closing :: rest))) := by simpa using hat
  exact ends_core hat' hc (hk ▸ ends_group hat' (hu t _ rest hat'.next) hb hv)

/-- Before a closing bracket there is no element. -/
theorem fails_element {g : Group} {b : Text} (h : At t i (b ++ g.closing :: rest))
    (hb : Blank b) : grammar.Fails t g.element i false := by
  have hnext : ∀ c ∈ (g.closing :: rest).head?, c ∉ blanks := by
    simpa using not_blank_of_mem_closers (closing_mem_closers g)
  have hspace : grammar.Ends t space i _ := ends_space h hb hnext
  cases g with
  | array =>
    have hcore : grammar.Fails t core (i + b.length) false := by
      refine fails_core h.skip hnext fun k => ?_
      simpa using closing_not_mem_first .array k
    exact fails_value (.skip hspace (isUnit_terminal _ _) (.here hcore))
  | object =>
    have hquote : grammar.Fails t (char "json.opening quote" '"') (i + b.length) false :=
      fails_char h.skip (by simp [Group.closing])
    have hpair : grammar.FailsSeq t (quoted ++ [space,char "json.colon" ':',value]) [] false i
        false := .skip hspace (isUnit_terminal _ _) (.here hquote)
    exact .seq hpair

/-- Between brackets with blanks only there are no elements. -/
theorem ends_no_elements {g : Group} {b : Text} (h : At t i (b ++ g.closing :: rest))
    (hb : Blank b) : grammar.Ends t g.elements i (.value (.success (.list []) (i + 0) false)) := by
  have hgap : grammar.EndsGap t g.comma ⟨[],0,false,i⟩ (.value (.success .none i false)) :=
    .first rfl
  have hend : grammar.EndsRounds t g.element g.comma 0 none ⟨[],0,false,i⟩
      (.value (gathered i [] [] false)) := by
    simpa [gathered] using EndsRounds.noElement rfl hgap (fails_element h hb)
  exact ends_elements hend

theorem ReadsAll.ends {g : Group} {vs : List Value} (h : ReadsAll g u vs) (hvs : vs ≠ [])
    (hat : At t i (u ++ g.closing :: rest)) :
    grammar.Ends t g.elements i (.value (.success (.list vs) (i + u.length) false)) := by
  have hr : ∀ c ∈ (g.closing :: rest).head?, c ∈ closers ∧ c ≠ ',' := by
    cases g <;> simp [Group.closing,closers]
  exact ends_elements (h t i _ hat (fun c hc => (hr c hc).1) _
    (rounds_end hat hvs fun c hc => (hr c hc).2))

theorem reads_word {k : Kind} {name : String} {c : Char} {word follow : Text} {v : Value}
    (hk : k.parser = constant name (c :: word) v) (hc : c ∈ k.first) :
    Reads core follow (c :: word) v := by
  intro t i rest hat _
  have hw : grammar.Ends t k.parser i
      (.value (.success v (i + (c :: word).length) false)) := by
    rw [hk]
    exact ends_word hat
  exact ends_core hat hc hw

theorem reads_string {k s follow : Text} (hk : Characters k s) :
    Reads core follow ('"' :: (k ++ ['"'])) (.str s) := by
  intro t i rest hat _
  have hat' : At t i ('"' :: (k ++ '"' :: rest)) := by simpa using hat
  exact ends_core (k := .string) hat' (by decide) (ends_string hat' hk)

/-- Whatever blanks stand around a value are read with it. -/
theorem reads_padded {b b' : Text} {v : Value} (hb : Blank b) (hu : Derives u (.value v))
    (hv : Reads core (blanks ++ closers) u v) (hb' : Blank b') :
    Reads value closers (b ++ (u ++ b')) v := by
  intro t i rest hat hr
  have hat' : At t i (b ++ (u ++ (b' ++ rest))) := by simpa using hat
  have hfollow : ∀ c ∈ (b' ++ rest).head?, c ∈ blanks ++ closers := by
    cases b' with
    | nil => exact fun c hc => List.mem_append_right _ (hr c hc)
    | cons d b' => simpa using Or.inl (hb' d (by simp))
  have hstart : ∀ c ∈ (u ++ (b' ++ rest)).head?, c ∉ blanks := by
    obtain ⟨k,c,u,rfl,hc⟩ := hu.first
    simpa using k.not_blank_of_mem_first hc
  exact ends_value hat' hb hstart (hv t _ _ hat'.skip hfollow) hb' fun c hc =>
    not_blank_of_mem_closers (hr c hc)

theorem reads_member {b k s b' : Text} {v : Value} (hb : Blank b) (hk : Characters k s)
    (hb' : Blank b') (hv : Reads value closers u v) :
    Reads pair closers (b ++ '"' :: (k ++ '"' :: (b' ++ ':' :: u))) (entry (s,v)) := by
  intro t i rest hat hr
  have hat' : At t i (b ++ '"' :: (k ++ '"' :: (b' ++ ':' :: (u ++ rest)))) := by simpa using hat
  exact ends_pair hat' hb hk hb' (hv t _ _ hat'.skip.next.skip.next.skip.next hr)

theorem Derives.readable {f : Form} (h : Derives u f) : Readable u f := by
  induction h with
  | null => exact reads_word (k := .null) rfl (by decide)
  | true => exact reads_word (k := .true) rfl (by decide)
  | false => exact reads_word (k := .false) rfl (by decide)
  | number hu hx =>
    intro t i rest hat hr
    obtain ⟨c,u,rfl,hc⟩ := hu.first
    exact ends_core (k := .number) hat hc
      (reads_number hat hu hx fun d hd => not_numeral_of_follow (hr d hd))
  | string hk => exact reads_string hk
  | emptyArray hb =>
    exact reads_group (g := .array) (k := .array) (u := []) rfl (by decide) hb
      (fun _ _ _ hat => ends_no_elements hat hb) rfl
  | array h ih =>
    exact reads_group (g := .array) (k := .array) (b := []) rfl (by decide) (by simp [Blank])
      (fun _ _ _ hat => ih.ends (Group.Elements.ne_nil (g := .array) h) hat) rfl
  | emptyObject hb =>
    exact reads_group (g := .object) (k := .object) (u := []) rfl (by decide) hb
      (fun _ _ _ hat => ends_no_elements hat hb) rfl
  | @object u es d h hd ih =>
    obtain rfl := isDict_iff.mp hd
    have hne : es.map entry ≠ [] := Group.Elements.ne_nil (g := .object) ⟨es,rfl,h⟩
    exact reads_group (g := .object) (k := .object) (b := []) rfl (by decide) (by simp [Blank])
      (fun _ _ _ hat => ih.ends hne hat) (Group.toDict_entries es)
  | padded hb hu hb' ih => exact reads_padded hb hu ih hb'
  | member hb hk hb' _ ih => exact reads_member hb hk hb' ih
  | item h ih => exact ReadsAll.one (g := .array) ih h.padded_ne_nil
  | nextItem h h' ih ih' =>
    exact ReadsAll.next (g := .array) ih (Group.Elements.ne_nil (g := .array) h) ih'
      h'.padded_ne_nil
  | firstMember h ih =>
    exact ReadsAll.one (g := .object) ih (Group.Element.ne_nil (g := .object) ⟨_,_,rfl,h⟩)
  | @nextMember u u' key es v h h' ih ih' =>
    have hes : es.map entry ≠ [] := Group.Elements.ne_nil (g := .object) ⟨es,rfl,h⟩
    have hu' : u' ≠ [] := Group.Element.ne_nil (g := .object) ⟨_,_,rfl,h'⟩
    simpa [Readable] using ReadsAll.next (g := .object) ih hes ih' hu'

/-! ## Nothing else is read -/

/-- At a place a parser fails, or reads a text of the given kind. -/
def Answers (D : Text → Value → Prop) (p : Parser) (t : Text) (i : Int) (u : Text) : Prop :=
  (∃ cut, grammar.Fails t p i cut) ∨ ∃ w rest v cut, u = w ++ rest ∧ D w v ∧
    grammar.Ends t p i (.value (.success v (i + w.length) cut))

/-- The elements of a group are read or refused at every place with fewer characters to come. -/
def AnswersBelow (t : Text) (n : Nat) (g : Group) : Prop :=
  ∀ i u, u.length < n → At t i u → Answers g.Element g.element t i u

theorem AnswersBelow.mono {g : Group} {m n : Nat} (h : AnswersBelow t n g) (hm : m ≤ n) :
    AnswersBelow t m g :=
  fun i u hu => h i u (Nat.lt_of_lt_of_le hu hm)

/-- However many elements follow the first ones, the rounds of a group read some of them. -/
theorem answers_rounds {g : Group} {w : Text} {vs : List Value} {cut : Bool}
    (he : AnswersBelow t (rest.length + 1) g) (h : At t i (w ++ rest)) (hw : g.Elements w vs) :
    ∃ w' rest' vs' cut', w ++ rest = w' ++ rest' ∧ g.Elements w' vs' ∧
      grammar.EndsRounds t g.element g.comma 0 none (gathered i w vs cut)
        (.value (gathered i w' vs' cut')) := by
  induction hn : rest.length using Nat.strongRecOn generalizing rest w vs cut with
  | ind n ih =>
    rcases head_ne_or_cons ',' rest with hr | ⟨r,rfl⟩
    · exact ⟨w,rest,vs,cut,rfl,hw,rounds_end h hw.ne_nil hr⟩
    · have hcount : vs.length ≠ 0 := mt List.length_eq_zero_iff.mp hw.ne_nil
      rcases he _ r (Nat.lt_succ_of_lt (Nat.lt_succ_self _)) h.skip.next with ⟨c,hf⟩ | ⟨w₁,r₁,v,c,rfl,hd,hv⟩
      · have hend : grammar.EndsRounds t g.element g.comma 0 none (gathered i w vs cut)
            (.value { gathered i w vs cut with cut := cut || false || c }) :=
          .noElement rfl (.later hcount (ends_comma h.skip)) hf
        exact ⟨w,_,vs,_,rfl,hw,hend⟩
      · have hlen : r₁.length < n := by
          rw [← hn]
          simp only [List.length_cons,List.length_append]
          omega
        have hat : At t i ((w ++ ',' :: w₁) ++ r₁) := by simpa using h
        obtain ⟨w',rest',vs',cut',hu,hw',hr⟩ := @ih r₁.length hlen r₁ (w ++ ',' :: w₁) (vs ++ [v])
          (cut || c) (he.mono (by omega)) hat (hw.next hd) rfl
        exact ⟨w',rest',vs',cut',by simpa using hu,hw',rounds_next h hw.ne_nil hd.ne_nil hv hr⟩

/-- The elements of a group are read as far as there are some. -/
theorem answers_elements {g : Group}
    (he : AnswersBelow t (u.length + 1) g) (h : At t i u) :
    ∃ w rest vs cut, u = w ++ rest ∧ (w = [] ∧ vs = [] ∨ g.Elements w vs) ∧
      grammar.Ends t g.elements i (.value (.success (.list vs) (i + w.length) cut)) := by
  have hgap : grammar.EndsGap t g.comma ⟨[],0,false,i⟩ (.value (.success .none i false)) :=
    .first rfl
  rcases he i u (Nat.lt_succ_self _) h with ⟨c,hf⟩ | ⟨w,rest,v,c,rfl,hd,hv⟩
  · have hend : grammar.EndsRounds t g.element g.comma 0 none ⟨[],0,false,i⟩
        (.value (gathered i [] [] c)) := by
      simpa [gathered] using EndsRounds.noElement rfl hgap hf
    exact ⟨[],u,[],c,rfl,Or.inl ⟨rfl,rfl⟩,ends_elements hend⟩
  · have he' : AnswersBelow t (rest.length + 1) g :=
      he.mono (by rw [List.length_append]; omega)
    obtain ⟨w',rest',vs,cut,hu,hw,hr⟩ := answers_rounds he' h (.one hd)
    exact ⟨w',rest',vs,cut,hu,Or.inr hw,ends_elements (rounds_first h hd.ne_nil hv hr)⟩

theorem fails_closing {g : Group} {cut : Bool} {vs : List Value} {b : Text}
    (h : At t i (g.opening :: (u ++ (b ++ rest))))
    (hu : grammar.Ends t g.elements (i + 1) (.value (.success (.list vs) (i + 1 + u.length) cut)))
    (hb : Blank b) (hr : ∀ c ∈ rest.head?, c ∉ blanks ∧ c ≠ g.closing) :
    grammar.Fails t g.parser i true := by
  have hspace : grammar.Ends t space (i + 1 + u.length) _ :=
    ends_space h.next.skip hb fun c hc => (hr c hc).1
  have hclosing : grammar.Fails t g.closingParser (i + 1 + u.length + b.length) false := by
    cases g <;> exact fails_char h.next.skip.skip fun c hc => (hr c hc).2
  have hparts : grammar.FailsSeq t g.parts [] false i true := by
    refine .skip (ends_opening h) (isUnit_opening g) (.keep hu (isUnit_elements g) ?_)
    exact .skip hspace (isUnit_terminal _ _) (.here hclosing)
  cases g with
  | array => exact .map (.seq hparts)
  | object => exact .map (.seq hparts)

theorem answers_group {g : Group} (he : AnswersBelow t u.length g) (h : At t i u) :
    Answers (fun w v => Derives w (.value v)) g.parser t i u := by
  rcases head_ne_or_cons g.opening u with hu | ⟨u,rfl⟩
  · exact Or.inl ⟨false,fails_group h hu⟩
  · obtain ⟨w,r,vs,cut,rfl,hw,hr⟩ := answers_elements he h.next
    obtain ⟨b,r,rfl,hb,hblank⟩ := exists_blank r
    rcases head_ne_or_cons g.closing r with hc | ⟨r,rfl⟩
    · exact Or.inl ⟨true,fails_closing h hr hb fun c hm => ⟨hblank c hm,hc c hm⟩⟩
    · obtain ⟨v,hv,hd⟩ : ∃ v, g.build (.list vs) = .ok v ∧
          Derives (g.opening :: (w ++ (b ++ [g.closing]))) (.value v) := by
        rcases hw with ⟨rfl,rfl⟩ | hw
        · exact g.build_nil hb
        · simpa using Group.build_elements (hw.append hb)
      exact Or.inr ⟨_,r,v,true,by simp,hd,ends_group h hr hb hv⟩

theorem answers_string (h : At t i u) (hu : ∀ c ∈ u.head?, c ∉ blanks) :
    Answers (fun w v => Derives w (.value v)) string t i u := by
  rcases answers_quoted (G := grammar) h with hf | ⟨b,k,s,rest,rfl,hb,hk⟩
  · have hseq := hf []
    exact Or.inl ⟨false,.seq hseq⟩
  · cases b with
    | nil => exact Or.inr ⟨_,rest,.str s,false,by simp,.string hk,ends_string h hk⟩
    | cons c b => exact absurd (hb c (by simp)) (hu c rfl)

theorem answers_word {name : String} {word : Text} {v : Value} (h : At t i u)
    (hd : Derives word (.value v)) :
    Answers (fun w v => Derives w (.value v)) (constant name word v) t i u := by
  by_cases hw : word <+: u
  · obtain ⟨rest,rfl⟩ := hw
    exact Or.inr ⟨word,rest,v,false,rfl,hd,ends_word h⟩
  · exact Or.inl ⟨false,.map (fails_literal h hw)⟩

theorem answers_kind (k : Kind) (he : ∀ g, AnswersBelow t u.length g) (h : At t i u)
    (hu : ∀ c ∈ u.head?, c ∉ blanks) :
    Answers (fun w v => Derives w (.value v)) k.parser t i u := by
  cases k with
  | object => exact answers_group (he .object) h
  | array => exact answers_group (he .array) h
  | string => exact answers_string h hu
  | true => exact answers_word h .true
  | false => exact answers_word h .false
  | null => exact answers_word h .null
  | number =>
    rcases answers_number (G := grammar) h with hf | ⟨w,rest,x,rfl,hw,hx,hr⟩
    · exact Or.inl ⟨false,hf⟩
    · exact Or.inr ⟨w,rest,.float x,false,rfl,.number hw hx,hr⟩

/-- A choice reads what one of its branches reads. -/
theorem answers_choice {D : Text → Value → Prop} {whole : Parser} {branches : List Parser}
    (h : ∀ p ∈ branches, Answers D p t i u) :
    (∃ cut, grammar.EndsChoice t whole i branches (.value (.failure i whole cut))) ∨
      ∃ w rest v, u = w ++ rest ∧ D w v ∧
        grammar.EndsChoice t whole i branches (.value (.success v (i + w.length) false)) := by
  induction branches with
  | nil => exact Or.inl ⟨false,.nil⟩
  | cons p branches ih =>
    rcases h p (by simp) with ⟨cut,hf⟩ | ⟨w,rest,v,cut,hu,hd,hv⟩
    · cases cut with
      | true => exact Or.inl ⟨true,.stop hf⟩
      | false =>
        rcases ih fun q hq => h q (by simp [hq]) with ⟨cut,hr⟩ | ⟨w,rest,v,hu,hd,hr⟩
        · exact Or.inl ⟨cut,.there hf hr⟩
        · exact Or.inr ⟨w,rest,v,hu,hd,.there hf hr⟩
    · exact Or.inr ⟨w,rest,v,hu,hd,.here hv⟩

theorem answers_core (he : ∀ g, AnswersBelow t u.length g) (h : At t i u)
    (hu : ∀ c ∈ u.head?, c ∉ blanks) : (∃ cut, grammar.Fails t core i cut) ∨
      ∃ w rest v, u = w ++ rest ∧ Derives w (.value v) ∧
        grammar.Ends t core i (.value (.success v (i + w.length) false)) := by
  have hk : ∀ p ∈ Kind.all.map Kind.parser,
      Answers (fun w v => Derives w (.value v)) p t i u := by
    intro p hp
    obtain ⟨k,-,rfl⟩ := List.mem_map.mp hp
    exact answers_kind k he h hu
  rcases answers_choice hk with ⟨cut,hr⟩ | ⟨w,rest,v,hu,hd,hr⟩
  · exact Or.inl ⟨cut,Fails.choice hr⟩
  · exact Or.inr ⟨w,rest,v,hu,hd,.choice hr⟩

theorem answers_padded (he : ∀ g, AnswersBelow t u.length g) (h : At t i u) :
    Answers (fun w v => Derives w (.padded v)) value t i u := by
  obtain ⟨b,r,rfl,hb,hr⟩ := exists_blank u
  have hspace : grammar.Ends t space i _ := ends_space h hb hr
  have he' : ∀ g, AnswersBelow t r.length g :=
    fun g => (he g).mono (by rw [List.length_append]; omega)
  rcases answers_core he' h.skip hr with ⟨cut,hf⟩ | ⟨w,r,v,rfl,hd,hv⟩
  · exact Or.inl ⟨cut,fails_value (.skip hspace (isUnit_terminal _ _) (.here hf))⟩
  · obtain ⟨b',rest,rfl,hb',hrest⟩ := exists_blank r
    exact Or.inr ⟨_,rest,v,false,by simp,.padded hb hd hb',ends_value h hb hr hv hb' hrest⟩

theorem answers_pair (hv : ∀ j u', u'.length < u.length → At t j u' →
    Answers (fun w v => Derives w (.padded v)) value t j u') (h : At t i u) :
    Answers (Group.Element .object) pair t i u := by
  rcases answers_quoted (G := grammar) h with hf | ⟨b,k,s,r,rfl,hb,hk⟩
  · have hseq := hf [space,char "json.colon" ':',value]
    exact Or.inl ⟨false,.seq hseq⟩
  · obtain ⟨b',r,rfl,hb',hr⟩ := exists_blank r
    have hat := h.skip.next.skip.next
    have hspace : grammar.Ends t space (i + b.length + 1 + k.length + 1) _ :=
      ends_space hat hb' hr
    have hfails (cut : Bool) (hrest : grammar.FailsSeq t [space,char "json.colon" ':',value]
        [.str s] false (i + b.length + 1 + k.length + 1) cut) :
        grammar.Fails t pair i cut := by
      obtain ⟨j,cause,hrest⟩ := hrest
      exact ⟨j,cause,.seq (ends_quoted h hb hk hrest)⟩
    rcases head_ne_or_cons ':' r with hc | ⟨r,rfl⟩
    · refine Or.inl ⟨false,hfails _ ?_⟩
      exact .skip hspace (isUnit_terminal _ _) (.here (fails_char hat.skip hc))
    · have hcolon : grammar.Ends t (char "json.colon" ':')
          (i + b.length + 1 + k.length + 1 + b'.length) _ := ends_char hat.skip
      have hlen : r.length < (b ++ '"' :: (k ++ '"' :: (b' ++ ':' :: r))).length := by
        simp
        omega
      rcases hv _ r hlen hat.skip.next with ⟨cut,hf⟩ | ⟨w,rest,v,cut,rfl,hd,hr⟩
      · refine Or.inl ⟨cut,hfails _ ?_⟩
        exact .skip hspace (isUnit_terminal _ _) (.skip hcolon (isUnit_terminal _ _) (.here hf))
      · exact Or.inr ⟨_,rest,entry (s,v),cut,by simp,⟨s,v,rfl,.member hb hk hb' hd⟩,
          ends_pair h hb hk hb' hr⟩

theorem answersBelow (t : Text) (n : Nat) (g : Group) : AnswersBelow t n g := by
  induction n generalizing g with
  | zero => exact fun _ _ h => absurd h (Nat.not_lt_zero _)
  | succ n ih =>
    intro i u hu h
    have hv (j : Int) (u' : Text) (hu' : u'.length ≤ u.length) (h' : At t j u') :
        Answers (fun w v => Derives w (.padded v)) value t j u' :=
      answers_padded (fun g => (ih g).mono (by omega)) h'
    cases g with
    | array => exact hv i u (Nat.le_refl _) h
    | object => exact answers_pair (fun j u' hu' => hv j u' (Nat.le_of_lt hu')) h

/-! ## Parsing -/

theorem ends_document {v : Value} (h : Derives t (.padded v)) :
    grammar.Ends t document 0 (.value (.success v t.length false)) := by
  have hv : grammar.Ends t value 0 (.value (.success v (0 + t.length) false)) :=
    h.readable t 0 [] (by simpa using At.start t) (by simp)
  have hat : At t (0 + t.length) [] := At.skip (by simpa using At.start t)
  have hseq : grammar.EndsSeq t [value,.terminal (.named "json.end") .finish] [] false 0
      (.value (.success v (0 + t.length) false)) :=
    .keep hv isUnit_value (.skip (ends_finish hat) (isUnit_terminal _ _) .nil)
  rw [Int.zero_add] at hseq
  exact .seq hseq

theorem fails_document (h : ∀ v, ¬ Derives t (.padded v)) :
    ∃ cut, grammar.Fails t document 0 cut := by
  rcases answers_padded (fun g => answersBelow t t.length g) (At.start t) with
    ⟨cut,hf⟩ | ⟨w,rest,v,cut,hu,hd,hv⟩
  · exact ⟨cut,.seq (.here hf)⟩
  · cases rest with
    | nil =>
      obtain rfl : t = w := by simpa using hu
      exact absurd hd (h v)
    | cons c rest =>
      have hat : At t (0 + w.length) (c :: rest) := At.skip (hu ▸ At.start t)
      exact ⟨cut || false,.seq (.keep hv isUnit_value (.here (fails_finish hat)))⟩

/-- A text that stands for a value parses to that value, up to its end.  Any other text fails to
parse; none raises.  This holds whatever the grammar was used for before. -/
theorem parse_document (t : Text) (hook : Option HookId) (config : Option Config) (xs : List Use)
    (hx : ∀ x ∈ xs, grammar.Has x.parser) :
    ∃ deep, ∀ limit ≥ deep,
      let a := (Parsing.parse (world none) limit document t 0 hook config
        (xs.foldl (Use.perform (world none)) {})).1
      (∀ v, Derives t (.padded v) → a = .value (.success v t.length false)) ∧
      ((∀ v, ¬ Derives t (.padded v)) → ∃ j cause cut, a = .value (.failure j cause cut)) := by
  have hs : grammar.Settled (fun _ => 0) (xs.foldl (Use.perform (world none)) {}).memory :=
    performAll_settled supplied hx (settled_new grammar _)
  have hcalm : ∀ hook, ((world none).hook hook).Calm := fun _ => HookKind.calm_lines _ _
  by_cases hd : ∃ v, Derives t (.padded v)
  · obtain ⟨v,hv⟩ := hd
    have he := ends_document hv
    obtain ⟨deep,hp⟩ := he.parse has_document (by simp) supplied hcalm hook config _ hs
    refine ⟨deep,fun limit hl => ?_⟩
    rw [hp limit hl]
    exact ⟨fun w hw => he.unique (ends_document hw),fun h => absurd hv (h v)⟩
  · have hd : ∀ v, ¬ Derives t (.padded v) := not_exists.mp hd
    obtain ⟨cut,j,cause,he⟩ := fails_document hd
    obtain ⟨deep,hp⟩ := he.parse has_document (by simp) supplied hcalm hook config _ hs
    refine ⟨deep,fun limit hl => ?_⟩
    rw [hp limit hl]
    exact ⟨fun w hw => absurd hw (hd w),fun _ => ⟨j,cause,cut,rfl⟩⟩

/-- A repeated key with an array first and then with escapes, after an unfinished text was
parsed. -/
theorem parse_repeated_key :
    ∃ deep, ∀ limit ≥ deep,
      (Parsing.parse (world none) limit document
        "\x7b\"a\": [ ],\"a\":\"\\u0041\\n\"\x7d ".toList 0 none none
        ([Use.parse 50 document "[1,".toList 0 none none].foldl (Use.perform (world none)) {})).1 =
        .value (.success (.dict [(['a'],.str ['A','\n'])]) 26 false) := by
  have blank (u : Text) (h : u = [] ∨ u = [' ']) : Blank u := by
    rcases h with rfl | rfl
    · simp [Blank]
    · simp [Blank,blanks]
  have key : Characters ['a'] ['a'] := characters_plain (by simp)
  have hdigits : ∀ c ∈ "0041".toList, c ∈ hexDigits := forall_mem_of_all (by decide)
  have hcode : Character "\\u0041".toList 'A' := .unicode rfl hdigits
  have htext : Characters "\\u0041\\n".toList ['A','\n'] :=
    .cons hcode (.cons (.escape .lineFeed) .nil)
  have hfirst : Derives "\"a\": [ ]".toList (.member ['a'] (.list [])) :=
    .member (blank [] (by simp)) key (blank [] (by simp))
      (.padded (blank [' '] (by simp)) (.emptyArray (blank [' '] (by simp))) (blank [] (by simp)))
  have hsecond : Derives "\"a\":\"\\u0041\\n\"".toList (.member ['a'] (.str ['A','\n'])) :=
    .member (blank [] (by simp)) key (blank [] (by simp))
      (.padded (blank [] (by simp)) (.string htext) (blank [] (by simp)))
  have hdict : IsDict [(['a'],.list []),(['a'],.str ['A','\n'])] [(['a'],.str ['A','\n'])] :=
    isDict_iff.mpr rfl
  have hobject := Derives.object (.nextMember (.firstMember hfirst) hsecond) hdict
  have hdocument := Derives.padded (blank [] (by simp)) hobject (blank [' '] (by simp))
  obtain ⟨deep,h⟩ := parse_document _ none none [.parse 50 document "[1,".toList 0 none none]
    (by simpa [Use.parser] using has_document)
  exact ⟨deep,fun limit hl => (h limit hl).1 _ hdocument⟩

end Peg.Samples.Json
