import Mathlib.Computability.Language

/-!
`match_one`. A C string is the list of its characters in front of the NUL, and `none` is a read behind
its end. A star tries what is left of the string from the longest suffix on, but not the empty one.
-/

namespace BitKeeper.Glob

open List

/-- The loop over a bracket, up to its end; `c` is the character of the string. -/
def bracket (c : Option Char) : List Char → Bool → Option (Bool × List Char)
  | x :: '-' :: y :: g, m =>
    let m := m || c.any fun c => x ≤ c && c ≤ y
    if g.head? = some ']' then some (m, g.tail) else bracket c g m
  | x :: g, m =>
    let m := m || c == some x
    if g.head? = some ']' then some (m, g.tail) else bracket c g m
  | [], _ => none

theorem bracket_shorter {c : Option Char} {g : List Char} {m : Bool} {r : Bool × List Char}
    (done : bracket c g m = some r) :
    r.2.length < g.length := by
  fun_induction bracket c g m with
  | case1 | case3 =>
    cases done
    simp only [length_tail,length_cons]
    omega
  | case2 _ _ _ _ _ _ ih | case4 _ _ _ _ _ _ ih =>
    have shorter := ih done
    simp only [length_cons]
    omega
  | case5 => cases done

def isMeta (c : Char) : Bool := c == '\\' || c == '[' || c == '?' || c == '*'

/-- The loop behind a star: `f` is the call for the rest of the glob, which begins with `g`. -/
def star (f : List Char → Option Bool) (g : Char) : List Char → Option Bool
  | [] => some false
  | c :: p =>
    if isMeta g || c == g then (f (c :: p)).bind fun found =>
      if found then some true else star f g p else star f g p

/-- Is the bracket negated, and what follows. -/
def caret (g : List Char) : Bool × List Char :=
  if g.head? = some '^' then (true, g.tail) else (false, g)

private theorem caret_le (g : List Char) : (caret g).2.length ≤ g.length := by
  unfold caret
  split
  · exact length_tail ▸ Nat.sub_le ..
  · exact Nat.le_refl _

/-- `ignorecase` and `BK_GLOB_EQUAL` are off. -/
def match_one (p : List Char) : List Char → Option Bool
  | [] => some p.isEmpty
  | '?' :: g => if p.isEmpty then some false else p.tail?.bind (match_one · g)
  | '[' :: g =>
    if ']' ∈ (caret g).2 then
      match _ran : bracket p.head? (caret g).2 false with
      | none => none
      | some r => if r.1 ^^ (caret g).1 then p.tail?.bind (match_one · r.2) else some false
    else some false
  | '*' :: g => if more : g ≠ [] then star (match_one · g) (g.head more) p else some true
  | '\\' :: g => if p.head? = g.head? then p.tail?.bind (match_one · g.tail) else some false
  | c :: g => if p.head? = some c then p.tail?.bind (match_one · g) else some false
termination_by g => g.length
decreasing_by
  all_goals simp only [length_cons,length_tail]
  any_goals omega
  have shorter := bracket_shorter _ran
  have shorter' := caret_le g
  omega

inductive Item where
  | char (x : Char)
  | range (x y : Char)

def Item.first : Item → Char
  | char x | range x _ => x

def Item.text : Item → List Char
  | char x => [x]
  | range x y => [x,'-',y]

def Item.hits (c : Option Char) : Item → Bool
  | char x => c == some x
  | range x y => c.any fun c => x ≤ c && c ≤ y

/-- What may follow an item: no `-` is taken for a range, and no `]` for the end. -/
def Item.Before (i j : Item) : Prop := j.first ≠ ']' ∧ (j.first = '-' → ∃ x y, i = range x y)

inductive Single where
  | lit (x : Char)
  | esc (x : Char)
  | any
  | set (invert : Bool) (items : List Item)

namespace Single

def text : Single → List Char
  | lit x => [x]
  | esc x => ['\\',x]
  | any => ['?']
  | set invert items => '[' :: (if invert then ['^'] else []) ++ (items.flatMap Item.text ++ [']'])

def Ok : Single → Prop
  | lit x => isMeta x = false
  | set invert items =>
    items ≠ [] ∧ items.IsChain Item.Before ∧ (invert = false → items.head?.map Item.first ≠ some '^')
  | _ => True

def accepts (c : Char) : Single → Bool
  | lit x | esc x => c == x
  | any => true
  | set invert items => items.any (Item.hits (some c)) ^^ invert

def negated : Single → Bool
  | set invert _ => invert
  | _ => false

end Single

inductive Elem where
  | one (x : Single)
  | star

def Elem.text : Elem → List Char
  | one x => x.text
  | star => ['*']

def Elem.Ok : Elem → Prop
  | one x => x.Ok
  | star => True

def Elem.lang : Elem → Language Char
  | one x => {w | ∃ c, w = [c] ∧ x.accepts c = true}
  | star => ⊤

structure Pattern where
  elems : List Elem
  ok : ∀ e ∈ elems, e.Ok

def text (G : List Elem) : List Char := G.flatMap Elem.text

def lang (G : List Elem) : Language Char := (G.map Elem.lang).prod

def Later (P : List Char → Prop) : List Char → Prop
  | [] => False
  | c :: s => P (c :: s) ∨ Later P s

/-- What is in front of a negated bracket takes the whole string, and every star leaves something. -/
def Overrun : List Elem → List Char → Prop
  | [], _ => False
  | .star :: G, s => Later (Overrun G) s
  | .one x :: _, [] => x.negated = true
  | .one x :: G, c :: s => x.accepts c = true ∧ Overrun G s

/-- What is in front of two stars at the end takes the whole string, and nothing less. -/
def Starved (G : List Elem) (s : List Char) : Prop :=
  ∃ G₀, G = G₀ ++ [.star,.star] ∧ s ∈ lang G₀ ∧ ∀ a ∈ lang G₀, ∀ b, a ++ b = s → b = []

/-- What `match_one` looks for: every star but one at the end leaves something. -/
def Found : List Elem → List Char → Prop
  | [], s => s = []
  | [.star], _ => True
  | .star :: G, s => Later (Found G) s
  | .one _ :: _, [] => False
  | .one x :: G, c :: s => x.accepts c = true ∧ Found G s

variable {c : Char} {s p g : List Char} {G : List Elem} {x : Single}

theorem bracket_items {c : Option Char} {items : List Item} (some_ : items ≠ [])
    (chain : items.IsChain Item.Before) (m : Bool) :
    bracket c (items.flatMap Item.text ++ ']' :: g) m = some (m || items.any (Item.hits c), g) := by
  induction items generalizing m with
  | nil => exact absurd rfl some_
  | cons i rest ih =>
    cases rest with
    | nil => cases i <;> simp [Item.text,Item.hits,bracket]
    | cons j rest =>
      obtain ⟨before,chain⟩ := isChain_cons_cons.mp chain
      have next := ih (cons_ne_nil j rest) chain
      have head : ((j :: rest).flatMap Item.text ++ ']' :: g).head? = some j.first := by
        cases j <;> rfl
      have open_ : ¬ ((j :: rest).flatMap Item.text ++ ']' :: g).head? = some ']' := head ▸
        fun same => before.1 (Option.some.inj same)
      rw [flatMap_cons,append_assoc,any_cons]
      generalize (j :: rest).flatMap Item.text ++ ']' :: g = more at next head open_ ⊢
      cases i with
      | char x =>
        change bracket c (x :: more) m = _
        rw [bracket,if_neg open_,next,Bool.or_assoc]
        · rfl
        · rintro y g' rfl
          obtain ⟨_,_,range⟩ := before.2 (Option.some.inj head).symm
          cases range
      | range x y =>
        change bracket c (x :: '-' :: y :: more) m = _
        rw [bracket,if_neg open_,next,Bool.or_assoc]
        rfl

theorem match_one_bracket {invert m : Bool} {g' : List Char} (body : caret g = (invert, g'))
    (closed : ']' ∈ g') {rest : List Char} (ran : bracket p.head? g' false = some (m, rest)) :
    match_one p ('[' :: g) = if m ^^ invert then p.tail?.bind (match_one · rest) else some false := by
  rw [match_one,body,if_pos closed]
  split
  next none_ => cases ran.symm.trans none_
  next r some_ =>
    cases ran.symm.trans some_
    rfl

theorem match_one_single (ok : x.Ok) :
    match_one [] (x.text ++ g) = (if x.negated then none else some false) ∧
    match_one (c :: s) (x.text ++ g) = if x.accepts c then match_one s g else some false := by
  cases x with
  | any | esc x => simp [Single.text,match_one,Single.negated,Single.accepts]
  | lit x =>
    simp only [Single.Ok,isMeta,Bool.or_eq_false_iff,beq_eq_false_iff_ne] at ok
    simp [Single.text,match_one,Single.negated,Single.accepts,ok]
  | set invert items =>
    obtain ⟨some_,chain,plain⟩ := ok
    have body : caret ((if invert then ['^'] else []) ++ (items.flatMap Item.text ++ ']' :: g)) =
        (invert, items.flatMap Item.text ++ ']' :: g) := by
      cases invert with
      | true => rfl
      | false =>
        obtain ⟨i,rest,rfl⟩ := exists_cons_of_ne_nil some_
        refine if_neg fun caret => plain rfl ?_
        cases i <;> exact caret
    have whole : (Single.set invert items).text ++ g =
        '[' :: ((if invert then ['^'] else []) ++ (items.flatMap Item.text ++ ']' :: g)) := by
      simp [Single.text]
    have step := fun p => match_one_bracket (p := p) body (by simp) (bracket_items some_ chain false)
    have missed : items.any (Item.hits none) = false :=
      any_eq_false.mpr fun i _ => by cases i <;> simp [Item.hits]
    rw [whole,step,step]
    cases invert <;> simp [missed,Single.accepts,Single.negated]

theorem later_iff {P : List Char → Prop} : Later P s ↔ ∃ t, t ≠ [] ∧ t <:+ s ∧ P t := by
  induction s with
  | nil => simp [Later]
  | cons c s ih => simp [Later,ih,suffix_cons_iff,or_and_right,and_or_left,exists_or]

/-- Where a try overruns, the next star could do for it what it does for a shorter suffix. -/
theorem Overrun.found {t u : List Char} (overrun : Overrun G t) (suffix : u <:+ t)
    (shorter : u.length < t.length) (found : Found G u) : Found G t := by
  induction G generalizing t u with
  | nil => exact overrun.elim
  | cons e G ih =>
    cases e with
    | star =>
      cases G with
      | nil => trivial
      | cons d G =>
        obtain ⟨v,some_,later,found⟩ := later_iff.mp found
        exact later_iff.mpr ⟨v,some_,later.trans suffix,found⟩
    | one x =>
      cases t with
      | nil => exact absurd shorter (Nat.not_lt_zero _)
      | cons c t =>
        cases u with
        | nil => exact found.elim
        | cons d u =>
          have less : u.length < t.length := Nat.lt_of_succ_lt_succ shorter
          have inner :=
            suffix_of_suffix_length_le ((suffix_cons d u).trans suffix) (suffix_cons c t) less.le
          exact ⟨overrun.1,ih overrun.2 inner less found.2⟩

def Answers (found overrun : Prop) (r : Option Bool) : Prop :=
  (r = some true ↔ found) ∧ (r = none ↔ overrun ∧ ¬ found)

private theorem star_answers {f : List Char → Option Bool} {x : Char}
    (call : ∀ s, Answers (Found G s) (Overrun G s) (f s))
    (skips : ∀ c p, (isMeta x || c == x) = false → f (c :: p) = some false) (s : List Char) :
    Answers (Later (Found G) s) (Later (Overrun G) s) (star f x s) := by
  induction s with
  | nil => exact ⟨iff_of_false nofun id,iff_of_false nofun And.left⟩
  | cons c s ih =>
    obtain ⟨yes,beyond⟩ := call (c :: s)
    unfold star Later
    by_cases fails : f (c :: s) = some false
    · have never : ¬ Found G (c :: s) := fun found => nomatch fails.symm.trans (yes.mpr found)
      have inside : ¬ Overrun G (c :: s) :=
        fun overrun => nomatch fails.symm.trans (beyond.mpr ⟨overrun,never⟩)
      simpa [fails,never,inside] using ih
    rw [if_pos (by_contra fun off => fails (skips c s (eq_false_of_ne_true off)))]
    cases result : f (c :: s) with
    | none =>
      obtain ⟨overrun,never⟩ := beyond.mp result
      have later : ¬ Later (Found G) s := by
        intro later
        obtain ⟨t,_,suffix,found⟩ := later_iff.mp later
        exact never (overrun.found (suffix.trans (suffix_cons c s))
          (Nat.lt_succ_of_le suffix.length_le) found)
      simp [Answers,overrun,never,later]
    | some found =>
      cases found with
      | true => simp [Answers,yes.mp result]
      | false => exact absurd result fails

theorem match_one_skips {d : Elem} (ok : d.Ok) (more : text (d :: G) ≠ []) (c : Char) (p : List Char)
    (off : (isMeta ((text (d :: G)).head more) || c == (text (d :: G)).head more) = false) :
    match_one (c :: p) (text (d :: G)) = some false := by
  cases d with
  | star => cases off
  | one x =>
    cases x with
    | lit x =>
      change match_one (c :: p) (Single.text (.lit x) ++ text G) = _
      rw [(match_one_single (x := .lit x) ok).2]
      exact if_neg (ne_true_of_eq_false (Bool.or_eq_false_iff.mp off).2)
    | _ => cases off

theorem match_one_answers (ok : ∀ e ∈ G, e.Ok) (s : List Char) :
    Answers (Found G s) (Overrun G s) (match_one s (text G)) := by
  induction G generalizing s with
  | nil => simp [Answers,text,match_one,Found,Overrun]
  | cons e G ih =>
    obtain ⟨okE,rest⟩ := forall_mem_cons.mp ok
    cases e with
    | star =>
      cases G with
      | nil => simp [Answers,text,Elem.text,match_one,Found]
      | cons d G =>
        have more : text (d :: G) ≠ [] := by
          cases d with
          | star => exact cons_ne_nil _ _
          | one x => cases x <;> exact cons_ne_nil _ _
        change Answers _ _ (match_one s ('*' :: text (d :: G)))
        rw [match_one,dif_pos more]
        exact star_answers (ih rest) (match_one_skips (rest d mem_cons_self) more) s
    | one x =>
      change Answers _ _ (match_one s (x.text ++ text G))
      cases s with
      | nil =>
        rw [(match_one_single (c := default) (s := []) okE).1]
        cases negated : x.negated <;> simp [Answers,Found,Overrun,negated]
      | cons c s =>
        have next := ih rest s
        rw [(match_one_single okE).2]
        cases accepts : x.accepts c with
        | false => simp [Answers,Found,Overrun,accepts]
        | true => simpa [Answers,Found,Overrun,accepts] using next

theorem mem_lang_cons {e : Elem} : s ∈ lang (e :: G) ↔ ∃ a ∈ e.lang, ∃ t ∈ lang G, a ++ t = s := by
  unfold lang
  rw [map_cons,prod_cons,Language.mem_mul]

theorem found_cons {e : Elem} (left : e = .star → G ≠ [] ∧ ¬ Found G []) :
    Found (e :: G) s ↔ ∃ a ∈ e.lang, ∃ t, Found G t ∧ a ++ t = s := by
  constructor
  · intro found
    cases e with
    | star =>
      obtain ⟨d,G,rfl⟩ := exists_cons_of_ne_nil (left rfl).1
      obtain ⟨t,_,⟨a,same⟩,found⟩ := later_iff.mp found
      exact ⟨a,trivial,t,found,same⟩
    | one x =>
      cases s with
      | nil => exact found.elim
      | cons c s => exact ⟨[c],⟨c,rfl,found.1⟩,s,found.2,rfl⟩
  · rintro ⟨a,inside,t,found,rfl⟩
    cases e with
    | star =>
      obtain ⟨d,G,rfl⟩ := exists_cons_of_ne_nil (left rfl).1
      exact later_iff.mpr ⟨t,fun empty => (left rfl).2 (empty ▸ found),⟨a,rfl⟩,found⟩
    | one x =>
      obtain ⟨c,rfl,accepts⟩ := inside
      exact ⟨accepts,found⟩

theorem found_two_stars : Found (G ++ [.star,.star]) s ↔ ∃ a ∈ lang G, ∃ b, b ≠ [] ∧ a ++ b = s := by
  induction G generalizing s with
  | nil =>
    have tries : Found [.star,.star] s ↔ s ≠ [] := by
      cases s with
      | nil => exact iff_of_false id fun some_ => some_ rfl
      | cons c s => exact iff_of_true (.inl trivial) (cons_ne_nil c s)
    rw [nil_append,tries]
    exact ⟨fun some_ => ⟨[],rfl,s,some_,rfl⟩,
      fun ⟨a,none_,b,some_,same⟩ => by cases none_; exact same ▸ some_⟩
  | cons e G ih =>
    rw [cons_append,found_cons fun _ => ⟨by simp,fun found => ?_⟩]
    · simp only [ih,mem_lang_cons]
      constructor
      · rintro ⟨z,inZ,_,⟨a,inside,b,some_,rfl⟩,rfl⟩
        exact ⟨z ++ a,⟨z,inZ,a,inside,rfl⟩,b,some_,append_assoc ..⟩
      · rintro ⟨_,⟨z,inZ,a,inside,rfl⟩,b,some_,rfl⟩
        exact ⟨z,inZ,a ++ b,⟨a,inside,b,some_,rfl⟩,(append_assoc ..).symm⟩
    · obtain ⟨a,_,b,some_,same⟩ := ih.mp found
      exact some_ (append_eq_nil_iff.mp same).2

private theorem nil_mem_lang (empty : [] ∈ lang G) : G = replicate G.length .star := by
  induction G with
  | nil => rfl
  | cons e G ih =>
    obtain ⟨a,inside,t,rest,same⟩ := mem_lang_cons.mp empty
    obtain ⟨rfl,rfl⟩ := append_eq_nil_iff.mp same
    cases e with
    | star => exact congrArg (Elem.star :: ·) (ih rest)
    | one x =>
      obtain ⟨_,wrong,_⟩ := inside
      cases wrong

private theorem found_iff (few : ∀ G₀, G ≠ G₀ ++ [.star,.star]) : Found G s ↔ s ∈ lang G := by
  induction G generalizing s with
  | nil => exact Iff.rfl
  | cons e G ih =>
    have next : ∀ {s}, Found G s ↔ s ∈ lang G :=
      ih fun G₀ same => few (e :: G₀) (congrArg (e :: ·) same)
    by_cases last : e = .star ∧ G = []
    · obtain ⟨rfl,rfl⟩ := last
      exact iff_of_true trivial (mem_lang_cons.mpr ⟨s,trivial,[],rfl,append_nil s⟩)
    · rw [mem_lang_cons,found_cons]
      · simp only [next]
      · rintro rfl
        refine ⟨fun empty => last ⟨rfl,empty⟩,fun found => ?_⟩
        have all := nil_mem_lang (next.mp found)
        cases G with
        | nil => exact last ⟨rfl,rfl⟩
        | cons d G =>
          refine few (replicate G.length .star) ?_
          rw [all,length_cons]
          exact (replicate_append_replicate (n := G.length) (m := 2)).symm

theorem mem_lang_two_stars : s ∈ lang (G ++ [.star,.star]) ↔ ∃ a ∈ lang G, ∃ b, a ++ b = s := by
  have all : ∀ b, b ∈ lang [.star,.star] := fun b => mem_lang_cons.mpr
    ⟨b,trivial,[],mem_lang_cons.mpr ⟨[],trivial,[],rfl,rfl⟩,append_nil b⟩
  unfold lang at all ⊢
  rw [map_append,prod_append,Language.mem_mul]
  simp only [all,true_and]

theorem starved_iff : (Found G s → s ∈ lang G) ∧ (Starved G s ↔ s ∈ lang G ∧ ¬ Found G s) := by
  by_cases few : ∀ G₀, G ≠ G₀ ++ [.star,.star]
  · rw [found_iff few]
    exact ⟨id,iff_of_false (fun ⟨G₀,same,_⟩ => few G₀ same) fun both => both.2 both.1⟩
  push Not at few
  obtain ⟨G₀,rfl⟩ := few
  rw [found_two_stars,mem_lang_two_stars]
  refine ⟨fun ⟨a,inside,b,_,same⟩ => ⟨a,inside,b,same⟩,?_,?_⟩
  · rintro ⟨G₁,same,inside,less⟩
    rw [append_cancel_right same]
    exact ⟨⟨s,inside,[],append_nil s⟩,fun ⟨a,within,b,some_,same⟩ => some_ (less a within b same)⟩
  · rintro ⟨⟨a,inside,b,same⟩,never⟩
    have less : ∀ a ∈ lang G₀, ∀ b, a ++ b = s → b = [] := fun a inside b same =>
      by_contra fun some_ => never ⟨a,inside,b,some_,same⟩
    rw [less a inside b same,append_nil] at same
    exact ⟨G₀,rfl,same ▸ inside,less⟩

/-- The answer is right unless the string is used up in front of a negated bracket or of two final
stars. -/
theorem match_one_correct_iff (s : List Char) (G : Pattern) :
    (∃ found, match_one s (text G.elems) = some found ∧ (found = true ↔ s ∈ lang G.elems)) ↔
      ¬ (Overrun G.elems s ∧ s ∉ lang G.elems) ∧ ¬ Starved G.elems s := by
  obtain ⟨yes,beyond⟩ := match_one_answers G.ok s
  obtain ⟨sound,starved⟩ := starved_iff (G := G.elems) (s := s)
  rw [starved]
  cases result : match_one s (text G.elems) with
  | none =>
    obtain ⟨overrun,never⟩ := beyond.mp result
    refine iff_of_false (fun ⟨_,wrong,_⟩ => nomatch wrong) fun ⟨known,fed⟩ => ?_
    exact known ⟨overrun,fun inside => fed ⟨inside,never⟩⟩
  | some found =>
    cases found with
    | true =>
      have holds := yes.mp result
      simp [holds,sound holds]
    | false =>
      have never : ¬ Found G.elems s := fun holds => nomatch result.symm.trans (yes.mpr holds)
      have inside : ¬ Overrun G.elems s :=
        fun overrun => nomatch result.symm.trans (beyond.mpr ⟨overrun,never⟩)
      simp [never,inside]

example : match_one ['a','b'] (text (Pattern.mk [.one (.lit 'a'),.star]
    (by simp [Elem.Ok,Single.Ok,isMeta])).elems) = some true := by
  simp [text,Elem.text,Single.text,match_one,tail?]

theorem match_one_two_stars : match_one [] ['*','*'] = some false ∧ [] ∈ lang [.star,.star] ∧
    match_one ['a'] ['a','[','^','b',']'] = none := by
  refine ⟨by simp [match_one,star],mem_lang_two_stars (G := []).mpr ⟨[],rfl,[],rfl⟩,?_⟩
  have answers :=
    match_one_answers (G := [.one (.lit 'a'),.one (.set true [.char 'b'])])
    (by simp [Elem.Ok,Single.Ok,isMeta]) ['a']
  exact answers.2.mpr ⟨⟨rfl,rfl⟩,fun found => found.2⟩

end BitKeeper.Glob
