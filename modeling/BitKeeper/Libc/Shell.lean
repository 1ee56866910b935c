import Mathlib.Tactic

/-!
Quoting words for a command line and splitting a command line into words. A C string is the list of
its characters in front of the NUL; a path that calls `exit(1)` is an error.
-/

namespace BitKeeper.Libc.Shell

open List

/-- The characters that make `shellquote` leave its simple case. -/
def quoting : List Char :=
  [' ', '\t', '\n', '\r', '\'', '"', '<', '>', '|', '$', '&', ';', '[', ']', '*', '(', ')', '\\']

instance (text : List Char) : Decidable (∀ c ∈ text, c ∉ quoting) := List.decidableBAll _ _

def escape (c : Char) : List Char := if c = '"' ∨ c = '\\' then ['\\',c] else [c]

def shellquote (text : List Char) : List Char :=
  if ∀ c ∈ text, c ∉ quoting then text else '"' :: text.flatMap escape ++ ['"']

inductive Fatal
  | unmatchedSingle
  | unmatchedDouble
  | unhandled
deriving DecidableEq

/-- A word with the flag behind its NUL: set for a shell operator. -/
structure Word where
  text : List Char
  shell : Bool
deriving DecidableEq

structure Split where
  ret : List Word
  buf : List Char
  item : Bool

def Split.save (s : Split) : Split := if s.item then ⟨s.ret ++ [⟨s.buf,false⟩],[],false⟩ else s

def Split.put (s : Split) (text : List Char) : Split := ⟨s.ret,s.buf ++ text,true⟩

/-- The label `sep` -/
def Split.sep (s : Split) (operator : List Char) : Split :=
  ⟨s.save.ret ++ [⟨operator,true⟩],s.save.buf,s.save.item⟩

/-- A double quoted string and what follows it; `escaped` behind a backslash that was skipped. -/
def dquoted (escaped : Bool) : List Char → Option (List Char × List Char)
  | [] => none
  | c :: rest =>
    if escaped then (dquoted false rest).map (Prod.map (c :: ·) id)
    else if c = '"' then some ([], rest)
    else if c = '\\' ∧ (rest.head? = some '\\' ∨ rest.head? = some '"') then dquoted true rest
    else (dquoted false rest).map (Prod.map (c :: ·) id)

/-- The length of a redirection that starts with a digit, 0 for any other text. -/
def numbered : List Char → Nat
  | c :: d :: rest =>
    if c.isDigit ∧ (d = '<' ∨ d = '>') then
      if rest.head? = some '&' ∧ rest.tail.head?.any Char.isDigit then 4 else 2
    else 0
  | _ => 0

/-- The `default` label, also entered behind a backslash. -/
def literal (line : List Char) (s : Split) : List Char × Split :=
  if numbered line = 0 then (line.tail, s.put (line.take 1))
  else (line.drop (numbered line), s.sep (line.take (numbered line)))

/-- One turn of the loop, at the character `c`. -/
def turn (c : Char) (rest : List Char) (s : Split) : Except Fatal (List Char × Split) :=
  if c ∈ [' ', '\t', '\n', '\r'] then .ok (rest, s.save)
  else if c = '\'' then
    if '\'' ∈ rest then
      .ok ((rest.dropWhile (· ≠ '\'')).tail, s.put (rest.takeWhile (· ≠ '\'')))
    else .error .unmatchedSingle
  else if c = '"' then
    match dquoted false rest with
    | some (text, rest') => .ok (rest', s.put text)
    | none => .error .unmatchedDouble
  else if c ∈ ['>', '<', '|'] then
    if c = '|' ∧ rest.head? = some '|' then .error .unhandled
    else if c = '>' ∧ rest.head? = some '>' then .ok (rest.tail, s.sep [c, '>'])
    else .ok (rest, s.sep [c])
  else if c ∈ ['`', '$', '&', ';', '[', ']', '*', '(', ')'] then .error .unhandled
  else if c = '\\' then
    if rest = [] then .ok (rest, s) else .ok (literal rest s)
  else .ok (literal (c :: rest) s)

theorem dquoted_shorter {escaped : Bool} {line text rest : List Char}
    (found : dquoted escaped line = some (text, rest)) : rest.length < line.length := by
  induction line generalizing escaped text with
  | nil => cases found
  | cons c line ih =>
    have copied : (dquoted false line).map (Prod.map (c :: ·) id) = some (text, rest) →
        rest.length < (c :: line).length := by
      intro found
      obtain ⟨⟨inner,after⟩,inside,same⟩ := Option.map_eq_some_iff.mp found
      cases same
      exact Nat.lt_succ_of_lt (ih inside)
    unfold dquoted at found
    split_ifs at found
    · exact copied found
    · cases found
      exact Nat.lt_succ_self _
    · exact Nat.lt_succ_of_lt (ih found)
    · exact copied found

theorem literal_shorter (c : Char) (rest : List Char) (s : Split) :
    (literal (c :: rest) s).1.length ≤ rest.length := by
  unfold literal
  split
  · exact le_rfl
  · rw [length_drop,length_cons]
    omega

theorem turn_shorter {c : Char} {rest line : List Char} {s after : Split}
    (turned : turn c rest s = .ok (line, after)) : line.length ≤ rest.length := by
  unfold turn at turned
  split_ifs at turned
  · cases turned
    exact le_rfl
  · cases turned
    rw [length_tail]
    exact (Nat.sub_le _ _).trans (dropWhile_suffix _).length_le
  · split at turned
    · cases turned
      exact Nat.le_of_lt (dquoted_shorter ‹_›)
    · cases turned
  · cases turned
    exact (length_tail ..).trans_le (Nat.sub_le _ _)
  · cases turned
    exact le_rfl
  · cases turned
    exact le_rfl
  · obtain ⟨d,rest,rfl⟩ := exists_cons_of_ne_nil ‹_›
    have shorter := literal_shorter d rest s
    rw [Except.ok.inj turned] at shorter
    exact Nat.le_succ_of_le shorter
  · have shorter := literal_shorter c rest s
    rwa [Except.ok.inj turned] at shorter

/-- `while (*pin)` and the last `SAVE_ITEM` -/
def shellSplitLoop (line : List Char) (s : Split) : Except Fatal (List Word) := match line with
  | [] => .ok s.save.ret
  | c :: rest =>
    match _turned : turn c rest s with
    | .error fatal => .error fatal
    | .ok (line, after) => shellSplitLoop line after
termination_by line.length
decreasing_by exact Nat.lt_succ_of_le (turn_shorter _turned)

def shellSplit (line : List Char) : Except Fatal (List Word) := shellSplitLoop line ⟨[],[],false⟩

def joined (words : List (List Char)) : List Char := intercalate [' '] (words.map shellquote)

section Loop

variable {c : Char} {rest line tail word : List Char} {s after : Split}

theorem shellSplitLoop_turn (turned : turn c rest s = .ok (line, after)) :
    shellSplitLoop (c :: rest) s = shellSplitLoop line after := by
  rw [shellSplitLoop]
  split
  · rw [turned] at *
    contradiction
  · next _ _ same =>
    rw [turned] at same
    cases same
    rfl

theorem shellSplitLoop_fatal {fatal : Fatal} (turned : turn c rest s = .error fatal) :
    shellSplitLoop (c :: rest) s = .error fatal := by
  rw [shellSplitLoop]
  split
  · next _ same =>
    rw [turned] at same
    rw [Except.error.inj same]
  · rw [turned] at *
    contradiction

private theorem turn_blank : turn ' ' rest s = .ok (rest, s.save) := rfl

theorem turn_backtick : turn '`' rest s = .error .unhandled := rfl

private theorem turn_double (found : dquoted false rest = some (word, tail)) :
    turn '"' rest s = .ok (tail, s.put word) := by
  simp [turn,found]

private theorem turn_plain (plain : c ∉ quoting) (tick : c ≠ '`')
    (next : rest.head? ≠ some '<' ∧ rest.head? ≠ some '>') :
    turn c rest s = .ok (rest, s.put [c]) := by
  have literally : numbered (c :: rest) = 0 := by
    cases rest with
    | nil => rfl
    | cons d rest => exact if_neg fun both => both.2.elim (by simp_all) (by simp_all)
  simp only [quoting,mem_cons,not_mem_nil,or_false,not_or] at plain
  simp [turn,plain,tick,literal,literally]

private theorem put_put (s : Split) (left right : List Char) :
    (s.put left).put right = s.put (left ++ right) := by
  simp [Split.put]

theorem dquoted_escape (word tail : List Char) :
    dquoted false (word.flatMap escape ++ '"' :: tail) = some (word, tail) := by
  induction word with
  | nil => rfl
  | cons c word ih =>
    rw [flatMap_cons,append_assoc]
    by_cases special : c = '"' ∨ c = '\\'
    · rw [escape,if_pos special]
      have skipped : dquoted false (['\\',c] ++ (word.flatMap escape ++ '"' :: tail)) =
          dquoted true ([c] ++ (word.flatMap escape ++ '"' :: tail)) := by
        rcases special with rfl | rfl <;> rfl
      rw [skipped]
      change (dquoted false (word.flatMap escape ++ '"' :: tail)).map _ = _
      rw [ih]
      rfl
    · rw [escape,if_neg special]
      rw [not_or] at special
      simp [dquoted,special,ih]

/-- A word that is neither quoted nor split any further. -/
def Bare (word : List Char) : Prop := '`' ∈ word ∧ ∀ c ∈ word, c ∉ quoting

instance : DecidablePred Bare := fun _ => inferInstanceAs (Decidable (_ ∧ _))

theorem shellSplitLoop_simple (simple : ∀ c ∈ word, c ∉ quoting)
    (ends : tail = [] ∨ tail.head? = some ' ') :
    shellSplitLoop (word ++ tail) s = if '`' ∈ word then .error .unhandled
      else shellSplitLoop tail (if word = [] then s else s.put word) := by
  induction word generalizing s with
  | nil => rfl
  | cons c word ih =>
    by_cases tick : c = '`'
    · subst tick
      rw [if_pos mem_cons_self]
      exact shellSplitLoop_fatal turn_backtick
    have next : (word ++ tail).head? ≠ some '<' ∧ (word ++ tail).head? ≠ some '>' := by
      cases word with
      | nil => rcases ends with rfl | blank <;> simp_all
      | cons d word =>
        have plain := simple d (mem_cons_of_mem _ mem_cons_self)
        constructor <;> rintro ⟨⟩ <;> exact plain (by decide)
    have stepped := shellSplitLoop_turn (s := s) (turn_plain (simple c mem_cons_self) tick next)
    rw [cons_append,stepped,ih (fun d inside => simple d (mem_cons_of_mem _ inside))]
    have same : '`' ∈ c :: word ↔ '`' ∈ word := by simp [Ne.symm tick]
    rw [if_congr same rfl rfl,if_neg (cons_ne_nil c word)]
    by_cases empty : word = []
    · rw [if_pos empty,empty]
    · rw [if_neg empty,put_put]
      rfl

theorem shellSplitLoop_word (ends : tail = [] ∨ tail.head? = some ' ') :
    shellSplitLoop (shellquote word ++ tail) s = if Bare word then .error .unhandled
      else shellSplitLoop tail (if word = [] then s else s.put word) := by
  by_cases simple : ∀ c ∈ word, c ∉ quoting
  · rw [shellquote,if_pos simple,shellSplitLoop_simple simple ends]
    exact if_congr (and_iff_left simple).symm rfl rfl
  · have filled : word ≠ [] := by
      rintro rfl
      exact simple (by simp)
    rw [shellquote,if_neg simple,if_neg (fun bare => simple bare.2), if_neg filled,append_assoc]
    exact shellSplitLoop_turn (turn_double (dquoted_escape word tail))

end Loop

theorem shellSplitLoop_joined (words : List (List Char)) (ret : List Word) :
    shellSplitLoop (joined words) ⟨ret,[],false⟩ = if ∃ word ∈ words, Bare word then .error .unhandled
      else .ok (ret ++ (words.filter (· ≠ [])).map (⟨·,false⟩)) := by
  induction words generalizing ret with
  | nil => simp [joined,shellSplitLoop,Split.save]
  | cons word words ih =>
    obtain ⟨tail,line,ends,next⟩ : ∃ tail, joined (word :: words) = shellquote word ++ tail ∧
        (tail = [] ∨ tail.head? = some ' ') ∧
        ∀ s, shellSplitLoop tail s = shellSplitLoop (joined words) s.save := by
      cases words with
      | nil => exact ⟨[],by simp [joined],Or.inl rfl,fun s => by
          simp [joined,shellSplitLoop,Split.save]; split <;> rfl⟩
      | cons other words =>
        exact ⟨' ' :: joined (other :: words),by simp [joined,intercalate],Or.inr rfl,
          fun s => shellSplitLoop_turn turn_blank⟩
    rw [line,shellSplitLoop_word ends,next]
    split
    next bare =>
      rw [if_pos ⟨word,mem_cons_self,bare⟩]
    rename_i bare
    have saved : (if word = [] then (⟨ret,[],false⟩ : Split) else Split.put ⟨ret,[],false⟩
      word).save =
        ⟨ret ++ ([word].filter (· ≠ [])).map (⟨·,false⟩),[],false⟩ := by
      by_cases empty : word = []
      · simp [empty,Split.save]
      · simp [empty,Split.save,Split.put]
    rw [saved,ih,append_assoc,← map_append,← filter_append]
    exact if_congr (by simp [bare]) rfl rfl

/-- The splitter gives the words back exactly when none is empty and every backtick is beside a
character that asks for quotes. -/
theorem shellSplit_joined_iff (words : List (List Char)) :
    shellSplit (joined words) = .ok (words.map (⟨·,false⟩)) ↔
      ∀ word ∈ words, word ≠ [] ∧ ('`' ∈ word → ∃ c ∈ word, c ∈ quoting) := by
  rw [shellSplit,shellSplitLoop_joined,nil_append]
  constructor
  · intro split
    split at split
    · cases split
    rename_i bare
    have kept : words.filter (· ≠ []) = words :=
      map_injective_iff.mpr (fun _ _ same => congrArg Word.text same) (Except.ok.inj split)
    intro word inside
    refine ⟨of_decide_eq_true (filter_eq_self.mp kept word inside),fun tick => ?_⟩
    by_contra unquoted
    push Not at unquoted
    exact bare ⟨word,inside,tick,unquoted⟩
  · intro fits
    have quoted : ¬∃ word ∈ words, Bare word := by
      rintro ⟨word,inside,tick,simple⟩
      obtain ⟨c,within,asks⟩ := (fits word inside).2 tick
      exact simple c within asks
    rw [if_neg quoted,filter_eq_self.mpr fun word inside => decide_eq_true (fits word inside).1]

/-- A lone backtick ends in `exit(1)`, and an empty word is lost. -/
theorem shellSplit_backtick_and_empty :
    shellSplit (joined [['`']]) = .error .unhandled ∧
      shellSplit (joined [[],['a']]) = .ok [⟨['a'],false⟩] := by
  constructor <;> rw [shellSplit,shellSplitLoop_joined] <;> decide

end BitKeeper.Libc.Shell
