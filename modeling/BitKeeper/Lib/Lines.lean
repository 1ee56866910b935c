import BitKeeper.Lib.Bytes

/-!
Texts as lines, and decimal numbers in texts.  Every line keeps its newline, so
that the lines of a text are a cut of it; only the last line may be without.
-/

namespace BitKeeper.Bytes

open List Nat

def newline : UInt8 := 10

def linesFrom (line : Bytes) : Bytes → List Bytes
  | [] => if line = [] then [] else [line]
  | c :: rest =>
    if c = newline then (line ++ [c]) :: linesFrom [] rest else linesFrom (line ++ [c]) rest

def lines (text : Bytes) : List Bytes := linesFrom [] text

structure Ended (line : Bytes) : Prop where
  last : line.getLast? = some newline
  once : newline ∉ line.dropLast

structure Unended (line : Bytes) : Prop where
  filled : line ≠ []
  none_ : newline ∉ line

variable {line : Bytes}

theorem Unended.last (unended : Unended line) : line.getLast? ≠ some newline :=
  fun last => unended.none_ (mem_of_getLast? last)

inductive Lined : List Bytes → Prop
  | nil : Lined []
  | last {line : Bytes} : Unended line → Lined [line]
  | cons {line : Bytes} {rest : List Bytes} : Ended line → Lined rest → Lined (line :: rest)

variable {body : Bytes}

theorem ended_concat (plain : newline ∉ body) : Ended (body ++ [newline]) :=
  ⟨getLast?_concat,by rwa [dropLast_concat]⟩

theorem Ended.split (ended : Ended line) : line = line.dropLast ++ [newline] := by
  have filled : line ≠ [] := by
    intro empty
    rw [empty] at ended
    exact absurd ended.last (Option.some_ne_none newline).symm
  have last : line.getLast filled = newline := by
    have known := ended.last
    rw [getLast?_eq_some_getLast filled] at known
    exact Option.some.inj known
  conv_lhs => rw [← dropLast_append_getLast filled,last]

private theorem linesFrom_ended (plain : newline ∉ body) (line rest : Bytes) :
    linesFrom line (body ++ newline :: rest) = (line ++ (body ++ [newline])) :: lines rest := by
  induction body generalizing line with
  | nil => exact if_pos rfl
  | cons c body ih =>
    obtain ⟨other,later⟩ := not_or.mp (mt mem_cons.mpr plain)
    rw [cons_append]
    unfold linesFrom
    rw [if_neg (Ne.symm other),ih later,append_assoc,singleton_append,cons_append]

theorem lines_ended (ended : Ended line) (rest : Bytes) :
    lines (line ++ rest) = line :: lines rest := by
  have cut := linesFrom_ended ended.once [] rest
  rw [nil_append,← ended.split] at cut
  unfold lines
  rw [ended.split,append_assoc,singleton_append,cut,← ended.split]
  rfl

private theorem linesFrom_plain (plain : newline ∉ body) (line : Bytes) :
    linesFrom line body = if line ++ body = [] then [] else [line ++ body] := by
  induction body generalizing line with
  | nil =>
    rw [append_nil]
    rfl
  | cons c body ih =>
    obtain ⟨other,later⟩ := not_or.mp (mt mem_cons.mpr plain)
    unfold linesFrom
    rw [if_neg (Ne.symm other),ih later,append_assoc,singleton_append]

theorem lines_flatten {list : List Bytes} (lined : Lined list) : lines list.flatten = list := by
  induction lined with
  | nil => rfl
  | @last line unended =>
    rw [flatten_cons,flatten_nil,append_nil]
    exact (linesFrom_plain unended.none_ []).trans (if_neg unended.filled)
  | cons ended _ ih => rw [flatten_cons,lines_ended ended,ih]

theorem flatten_linesFrom (line text : Bytes) : (linesFrom line text).flatten = line ++ text := by
  fun_induction linesFrom line text with
  | case1 => rfl
  | case2 => rw [flatten_cons,flatten_nil]
  | case3 line rest ih => rw [flatten_cons,ih,nil_append,append_assoc,singleton_append]
  | case4 line c rest ends ih => rw [ih,append_assoc,singleton_append]

theorem flatten_lines (text : Bytes) : (lines text).flatten = text := flatten_linesFrom [] text

theorem lined_linesFrom (plain : newline ∉ line) (text : Bytes) : Lined (linesFrom line text) := by
  fun_induction linesFrom line text with
  | case1 => exact .nil
  | case2 line some_ => exact .last ⟨some_,plain⟩
  | case3 line rest ih => exact .cons (ended_concat plain) (ih not_mem_nil)
  | case4 line c rest ends ih =>
    refine ih ?_
    rw [mem_append,mem_singleton]
    exact fun inside => inside.elim plain (Ne.symm ends)

theorem lined_lines (text : Bytes) : Lined (lines text) := lined_linesFrom not_mem_nil text

theorem Lined.mem {list : List Bytes} (lined : Lined list) (inside : line ∈ list) :
    Ended line ∨ Unended line := by
  induction lined with
  | nil => cases inside
  | last unended =>
    rw [mem_singleton.mp inside]
    exact .inr unended
  | cons ended _ ih =>
    rcases mem_cons.mp inside with rfl | later
    · exact .inl ended
    · exact ih later

theorem Lined.cases_cons {rest : List Bytes} (lined : Lined (line :: rest)) :
    (Unended line ∧ rest = []) ∨ (Ended line ∧ Lined rest) := by
  cases lined with
  | last unended => exact .inl ⟨unended,rfl⟩
  | cons ended rest => exact .inr ⟨ended,rest⟩

variable {first second : List Bytes}

section
variable (lined : Lined (first ++ second))
include lined

theorem Lined.behind : Lined second := by
  induction first with
  | nil => exact lined
  | cons line first ih =>
    rcases lined.cases_cons with ⟨_,empty⟩ | ⟨_,rest⟩
    · rw [(append_eq_nil_iff.mp empty).2]
      exact .nil
    · exact ih rest

theorem Lined.before : Lined first := by
  induction first with
  | nil => exact .nil
  | cons line first ih =>
    rcases lined.cases_cons with ⟨unended,empty⟩ | ⟨ended,rest⟩
    · rw [(append_eq_nil_iff.mp empty).1]
      exact .last unended
    · exact .cons ended (ih rest)

theorem Lined.ended (more : second ≠ []) : ∀ line ∈ first, Ended line := by
  induction first with
  | nil => exact nofun
  | cons line first ih =>
    rcases lined.cases_cons with ⟨_,empty⟩ | ⟨ended,rest⟩
    · exact absurd (append_eq_nil_iff.mp empty).2 more
    · exact forall_mem_cons.mpr ⟨ended,ih rest⟩

end

theorem Lined.append (ended : ∀ line ∈ first, Ended line) (lined : Lined second) :
    Lined (first ++ second) := by
  induction first with
  | nil => exact lined
  | cons line first ih =>
    obtain ⟨head,later⟩ := forall_mem_cons.mp ended
    exact .cons head (ih later)

def digit (n : Nat) : UInt8 := UInt8.ofNat (48 + n)

def isDigit (c : UInt8) : Bool := 48 ≤ c.toNat && c.toNat ≤ 57

def decimal (n : Nat) : Bytes := if n = 0 then [digit 0] else (digits 10 n).reverse.map digit

def readDecimal (s : Bytes) : Option (Nat × Bytes) :=
  if s.takeWhile isDigit = [] then none
  else some ((s.takeWhile isDigit).foldl (fun n c => 10 * n + (c.toNat - 48)) 0, s.dropWhile isDigit)

variable {n : Nat}

theorem digit_toNat (small : n < 10) : (digit n).toNat = 48 + n := by
  unfold digit
  rw [UInt8.toNat_ofNat']
  omega

theorem isDigit_digit (small : n < 10) : isDigit (digit n) = true := by
  unfold isDigit
  rw [digit_toNat small]
  simp
  omega

theorem decimal_digits (n : Nat) : ∀ c ∈ decimal n, isDigit c = true := by
  unfold decimal
  split
  · exact forall_mem_singleton.mpr (isDigit_digit (by omega))
  · intro c inside
    obtain ⟨d,listed,rfl⟩ := mem_map.mp inside
    exact isDigit_digit (digits_lt_base (by omega) (mem_reverse.mp listed))

theorem decimal_ne_nil (n : Nat) : decimal n ≠ [] := by
  unfold decimal
  split
  · exact cons_ne_nil _ _
  next zero =>
    intro empty
    have none_ := reverse_eq_nil_iff.mp (map_eq_nil_iff.mp empty)
    exact zero (digits_eq_nil_iff_eq_zero.mp none_)

theorem decimal_plain (n : Nat) : newline ∉ decimal n := by
  intro inside
  exact absurd (decimal_digits n newline inside) (by decide)

theorem decimal_value (n : Nat) : (decimal n).foldl (fun n c => 10 * n + (c.toNat - 48)) 0 = n := by
  unfold decimal
  split
  next zero =>
    rw [zero]
    rfl
  rw [foldl_map,foldl_reverse]
  have same : ∀ list : List Nat, (∀ d ∈ list, d < 10) →
      list.foldr (fun d n => 10 * n + ((digit d).toNat - 48)) 0 = ofDigits 10 list := by
    intro list small
    induction list with
    | nil => rfl
    | cons d list ih =>
      obtain ⟨first,later⟩ := forall_mem_cons.mp small
      rw [foldr_cons,ih later,ofDigits_cons,digit_toNat first]
      simp
      omega
  rw [same _ fun d listed => digits_lt_base (by omega) listed, ofDigits_digits]

variable {rest : Bytes}

theorem readDecimal_eq_some {s : Bytes} (read : readDecimal s = some (n, rest)) :
    ∃ digits, digits ≠ [] ∧ (∀ c ∈ digits, isDigit c = true) ∧ s = digits ++ rest ∧
      ∀ other, (∀ c ∈ other.head?, isDigit c = false) →
        readDecimal (digits ++ other) = some (n, other) := by
  unfold readDecimal at read
  split at read
  · cases read
  rename_i none_
  cases read
  refine ⟨s.takeWhile isDigit,none_,fun c inside => mem_takeWhile_imp inside,
    (takeWhile_append_dropWhile).symm,fun other stops => ?_⟩
  have cut : (s.takeWhile isDigit ++ other).takeWhile isDigit = s.takeWhile isDigit ∧
      (s.takeWhile isDigit ++ other).dropWhile isDigit = other := by
    rw [takeWhile_append_of_pos fun c inside => mem_takeWhile_imp inside,
      dropWhile_append_of_pos fun c inside => mem_takeWhile_imp inside]
    cases other with
    | nil => exact ⟨append_nil _,rfl⟩
    | cons c other =>
      rw [takeWhile_cons,dropWhile_cons,stops c rfl]
      exact ⟨append_nil _,rfl⟩
  unfold readDecimal
  rw [cut.1,cut.2,if_neg none_]

theorem readDecimal_decimal (n : Nat) (stops : ∀ c ∈ rest.head?, isDigit c = false) :
    readDecimal (decimal n ++ rest) = some (n, rest) := by
  have cut : (decimal n ++ rest).takeWhile isDigit = decimal n ∧
      (decimal n ++ rest).dropWhile isDigit = rest := by
    rw [takeWhile_append_of_pos (decimal_digits n),dropWhile_append_of_pos (decimal_digits n)]
    cases rest with
    | nil => exact ⟨append_nil _,rfl⟩
    | cons c rest =>
      have other := stops c rfl
      rw [takeWhile_cons,dropWhile_cons,other]
      exact ⟨append_nil _,rfl⟩
  unfold readDecimal
  rw [cut.1,cut.2,if_neg (decimal_ne_nil n),decimal_value]

def expect (text s : Bytes) : Option Bytes :=
  if text.isPrefixOf s then some (s.drop text.length) else none

theorem expect_eq_some {text s : Bytes} (found : expect text s = some rest) : s = text ++ rest := by
  unfold expect at found
  split at found
  next starts =>
    obtain ⟨behind,rfl⟩ := isPrefixOf_iff_prefix.mp starts
    rw [drop_left] at found
    rw [Option.some.inj found]
  · cases found

theorem expect_append (text rest : Bytes) : expect text (text ++ rest) = some rest := by
  unfold expect
  rw [if_pos ( isPrefixOf_iff_prefix.mpr (prefix_append text rest)),drop_left]

end BitKeeper.Bytes
