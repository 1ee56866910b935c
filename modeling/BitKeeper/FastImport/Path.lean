import BitKeeper.Lib.Bytes

/-!
The paths on a line of `git fast-export`. The memory behind a pointer is the list of its bytes, with
the terminating NUL of the line and what stands behind it. The pointer is left on the blank or the
quote at which the parser stopped.
-/

namespace BitKeeper.FastImport

open List Bytes Option

structure Path where
  bytes : Bytes
  nonempty : bytes ≠ []
  clean : ∀ b ∈ bytes, b ≠ 0

def plain (b : UInt8) : Bool := 33 ≤ b && b ≤ 126 && b != 34 && b != 92

/-- The letter behind the backslash in the quoted form. -/
def letter : UInt8 → Option UInt8
  | 7 => some 97
  | 8 => some 98
  | 9 => some 116
  | 10 => some 110
  | 11 => some 118
  | 12 => some 102
  | 13 => some 114
  | 34 => some 34
  | 92 => some 92
  | _ => none

def quoteByte (b : UInt8) : Bytes :=
  match letter b with
  | some c => [92,c]
  | none => if 32 ≤ b ∧ b ≤ 126 then [b] else [92,48 + b / 64,48 + b / 8 % 8,48 + b % 8]

/-- How `git fast-export` writes a path. -/
def written (path : Bytes) : Bytes :=
  if path.all plain then path else 34 :: path.flatMap quoteByte ++ [34]

def cString (memory : Bytes) : Bytes := memory.takeWhile (· != 0)

/-- `n` of the simple case: the distance to the blank with the wrong sign, in eight bits. -/
def simpleLength (start : Bytes) : Nat :=
  if 32 ∈ cString start then (-((cString start).idxOf 32 : Int) % 256).toNat else
    (cString start).length % 256

def unescape : UInt8 → Option UInt8
  | 97 => some 7
  | 98 => some 8
  | 102 => some 12
  | 110 => some 10
  | 114 => some 13
  | 116 => some 9
  | 118 => some 11
  | 92 => some 92
  | 34 => some 34
  | _ => none

def octal (c : UInt8) : Bool := 48 ≤ c && c ≤ 55

/-- The loop of the complicated case: what it writes and where it stops; none if an assertion fails.
-/
def unquote : Bytes → Option (Bytes × Bytes)
  | [] => none
  | c :: rest =>
    if c = 0 ∨ c = 34 then some ([],c :: rest)
    else if c = 92 then
      match rest with
      | [] => none
      | e :: rest =>
        match unescape e with
        | some b => (unquote rest).map fun r => (b :: r.1,r.2)
        | none =>
          match rest with
          | f :: g :: rest =>
            if octal e && octal f && octal g then
              (unquote rest).map fun r =>
                (((e - 48) <<< 6 ||| (f - 48) <<< 3 ||| (g - 48)) :: r.1,r.2)
            else none
          | _ => none
    else (unquote rest).map fun r => (c :: r.1,r.2)

/-- The path that is found and what the pointer is left on. -/
def parsePath (start : Bytes) : Option (Bytes × Bytes) :=
  if start.head? = some 34 then (unquote start.tail).map fun r => (cString r.1,r.2)
  else some (cString (start.take (simpleLength start)),start.drop (simpleLength start))

inductive Gop where
  | copy
  | delete
  | modify
  | rename
deriving DecidableEq

def Gop.single (op : Gop) : Bool := op = .delete ∨ op = .modify

/-- The end of `parseOp`: `path1` and `path2`. -/
def parsePaths (op : Gop) (p : Bytes) : Option (Bytes × Option Bytes) :=
  (parsePath p).bind fun one =>
    if op.single then some (one.1,none) else (parsePath one.2).map fun two => (one.1,some two.1)

def fields (op : Gop) (path next : Path) : Bytes :=
  if op.single then written path.bytes else written path.bytes ++ 32 :: written next.bytes

/-- Without quotes a last path is cut to eight bits of length; of two paths the first needs quotes
and the second must be one blank.
-/
def Readable (op : Gop) (path next : Path) : Prop :=
  if op.single then path.bytes.all plain = true → path.bytes.length < 256
  else path.bytes.all plain = false ∧ next.bytes = [32]

private theorem octal_digits : ∀ b : UInt8, letter b = none → ¬ (32 ≤ b ∧ b ≤ 126) →
    unescape (48 + b / 64) = none ∧ octal (48 + b / 64) = true ∧ octal (48 + b / 8 % 8) = true ∧
      octal (48 + b % 8) = true ∧
      (48 + b / 64 - 48) <<< 6 ||| (48 + b / 8 % 8 - 48) <<< 3 ||| (48 + b % 8 - 48) = b := by
  decide +kernel

theorem letter_unescape (b c : UInt8) (known : letter b = some c) : unescape c = some b := by
  unfold letter at known
  split at known <;> cases known <;> rfl

variable {rest : Bytes}

theorem unquote_raw {c : UInt8} (nul : c ≠ 0) (quote : c ≠ 34) (slash : c ≠ 92) :
    unquote (c :: rest) = (unquote rest).map fun r => (c :: r.1,r.2) := by
  rw [unquote.eq_def]
  simp [nul,quote,slash]

theorem unquote_stop {c : UInt8} (stop : c = 0 ∨ c = 34) :
    unquote (c :: rest) = some ([],c :: rest) := by
  rw [unquote.eq_def]
  exact if_pos stop

theorem unquote_quoteByte {b : UInt8} (clean : b ≠ 0) :
    unquote (quoteByte b ++ rest) = (unquote rest).map fun r => (b :: r.1,r.2) := by
  unfold quoteByte
  split
  next c known =>
    rw [unquote.eq_def]
    simp [letter_unescape b c known]
  next unknown =>
    split
    next printed =>
      have unquoted : b ≠ 34 ∧ b ≠ 92 := by
        constructor <;> rintro rfl <;> exact absurd unknown (by decide)
      exact unquote_raw clean unquoted.1 unquoted.2
    next unprinted =>
      obtain ⟨none,first,second,third,value⟩ := octal_digits b unknown unprinted
      rw [unquote.eq_def]
      simp only [cons_append,nil_append,none,first,second,third,value]
      simp

private theorem unquote_flatMap {path : Bytes} (clean : ∀ b ∈ path, b ≠ 0) :
    unquote (path.flatMap quoteByte ++ 34 :: rest) = some (path,34 :: rest) := by
  induction path with
  | nil => exact unquote_stop (.inr rfl)
  | cons b path ih =>
    obtain ⟨first,later⟩ := forall_mem_cons.mp clean
    rw [flatMap_cons,append_assoc,unquote_quoteByte first,ih later]
    rfl

theorem plain_spec : ∀ b : UInt8, plain b = true → b ≠ 0 ∧ b ≠ 32 ∧ b ≠ 34 ∧ b ≠ 92 :=
  by decide +kernel

private theorem unquote_plain {path : Bytes} (simple : path.all plain = true) :
    unquote (path ++ 0 :: rest) = some (path,0 :: rest) := by
  induction path with
  | nil => exact unquote_stop (.inl rfl)
  | cons b path ih =>
    obtain ⟨first,later⟩ := Bool.and_eq_true_iff.mp (all_cons ▸ simple)
    obtain ⟨nul,_,quote,slash⟩ := plain_spec b first
    rw [cons_append,unquote_raw nul quote slash,ih later]
    rfl

theorem cString_clean {path : Bytes} (clean : ∀ b ∈ path, b ≠ 0) : cString path = path :=
  takeWhile_eq_self_iff.mpr fun b inside => bne_iff_ne.mpr (clean b inside)

theorem cString_append {path : Bytes} (clean : ∀ b ∈ path, b ≠ 0) (rest : Bytes) :
    cString (path ++ rest) = path ++ cString rest :=
  takeWhile_append_of_pos fun b inside => bne_iff_ne.mpr (clean b inside)

variable (path : Path)

theorem parsePath_quoted (quoted : path.bytes.all plain = false) :
    parsePath (written path.bytes ++ rest) = some (path.bytes,34 :: rest) := by
  unfold written parsePath
  rw [quoted]
  have read : unquote (path.bytes.flatMap quoteByte ++ 34 :: rest) = some (path.bytes,34 :: rest) :=
    unquote_flatMap path.clean
  simp [read,cString_clean path.clean]

section
variable (simple : path.bytes.all plain = true)
include simple

theorem head_plain : (path.bytes ++ rest).head? ≠ some 34 := by
  rw [List.head?_append_of_ne_nil _ path.nonempty]
  intro quote
  exact (plain_spec 34 (all_eq_true.mp simple 34 (mem_of_mem_head? quote))).2.2.1 rfl

theorem blank_plain : 32 ∉ path.bytes := fun inside =>
  (plain_spec 32 (all_eq_true.mp simple 32 inside)).2.1 rfl

private theorem parsePath_last : parsePath (path.bytes ++ 0 :: rest) =
      some (path.bytes.take (path.bytes.length % 256),
        (path.bytes ++ 0 :: rest).drop (path.bytes.length % 256)) := by
  have string : cString (path.bytes ++ 0 :: rest) = path.bytes :=
    (cString_append path.clean _).trans (append_nil _)
  have length : simpleLength (path.bytes ++ 0 :: rest) = path.bytes.length % 256 := by
    unfold simpleLength
    rw [string,if_neg (blank_plain path simple)]
  unfold parsePath
  rw [if_neg (head_plain path simple),length,take_append_of_le_length (Nat.mod_le _ _),
    cString_clean fun b inside => path.clean b (mem_of_mem_take inside)]

private theorem parsePath_first {one two : Bytes × Bytes}
    (first : parsePath (path.bytes ++ 32 :: rest) = some one) (right : one.1 = path.bytes)
    (second : parsePath one.2 = some two) :
    two.1 = [] := by
  unfold parsePath at first
  rw [if_neg (head_plain path simple)] at first
  cases first
  generalize simpleLength (path.bytes ++ 32 :: rest) = n at right second
  have exact_ : n = path.bytes.length := by
    rcases Nat.lt_or_ge path.bytes.length n with long | short
    · obtain ⟨more,rfl⟩ := Nat.exists_eq_add_of_lt long
      rw [take_append,take_of_length_le (by omega),cString_append path.clean,Nat.add_assoc,
        Nat.add_sub_cancel_left] at right
      exact absurd (append_right_eq_self.mp right) (by simp [cString])
    · have lengths := congrArg length right
      have bound :=
        (takeWhile_sublist (fun b : UInt8 => b != 0)
        (l := (path.bytes ++ 32 :: rest).take n)).length_le
      rw [length_take] at bound
      change (cString _).length = _ at lengths
      unfold cString at lengths
      omega
  rw [exact_,drop_left] at second
  have start : simpleLength (32 :: rest) = 0 := by
    simp [simpleLength,cString]
  unfold parsePath at second
  rw [if_neg (by simp),start] at second
  cases second
  rfl

end

theorem parsePaths_single {op : Gop} (single : op.single = true) :
    parsePaths op (written path.bytes ++ 0 :: rest) = some (path.bytes,none) ↔
      (path.bytes.all plain = true → path.bytes.length < 256) := by
  unfold parsePaths
  by_cases simple : path.bytes.all plain = true
  · have same : written path.bytes = path.bytes := if_pos simple
    rw [same,parsePath_last path simple]
    simp only [bind_some,if_pos single,some.injEq,Prod.mk.injEq,and_true,simple,forall_const]
    rw [take_eq_self_iff]
    omega
  · rw [parsePath_quoted path (Bool.not_eq_true _ ▸ simple)]
    simp [single,simple]

theorem parsePath_second (rest : Bytes) (next : Path) :
    (parsePath (34 :: 32 :: (written next.bytes ++ 0 :: rest))).map Prod.fst = some next.bytes ↔
      next.bytes = [32] := by
  unfold parsePath
  rw [head?_cons,if_pos rfl,tail_cons,unquote_raw (by decide) (by decide) (by decide)]
  by_cases simple : next.bytes.all plain = true
  · have same : written next.bytes = next.bytes := if_pos simple
    have other : next.bytes ≠ [32] :=
      fun blank => blank_plain next simple (blank ▸ mem_singleton_self 32)
    rw [same,unquote_plain simple]
    simp only [other,iff_false]
    have string : cString (32 :: next.bytes) = 32 :: next.bytes :=
      cString_clean (forall_mem_cons.mpr ⟨by decide,next.clean⟩)
    simp [string]
  · have quoted : written next.bytes = 34 :: next.bytes.flatMap quoteByte ++ [34] := if_neg simple
    rw [quoted,cons_append,cons_append,unquote_stop (.inr rfl)]
    simp [cString,eq_comm]

theorem parsePaths_double {op : Gop} (double : op.single = false) (next : Path) :
    parsePaths op (written path.bytes ++ 32 :: (written next.bytes ++ 0 :: rest)) =
      some (path.bytes,some next.bytes) ↔
      path.bytes.all plain = false ∧ next.bytes = [32] := by
  unfold parsePaths
  by_cases simple : path.bytes.all plain = true
  · have same : written path.bytes = path.bytes := if_pos simple
    rw [same]
    refine iff_of_false (fun found => ?_) fun both => Bool.false_ne_true (both.1.symm.trans simple)
    obtain ⟨one,first,later⟩ := bind_eq_some_iff.mp found
    rw [double,if_neg Bool.false_ne_true] at later
    obtain ⟨two,second,equal⟩ := map_eq_some_iff.mp later
    obtain ⟨right,both⟩ := Prod.mk.inj equal
    have empty := parsePath_first path simple first right second
    exact next.nonempty ((some.inj both).symm.trans empty)
  · have quoted : path.bytes.all plain = false := Bool.not_eq_true _ ▸ simple
    rw [parsePath_quoted path quoted,← parsePath_second rest next]
    simp [double,quoted]

/-- On an `M` or `D` line one path is read back, on a `C` or `R` line two. -/
theorem parsePaths_written_iff (op : Gop) (path next : Path) (behind : Bytes) :
    parsePaths op (fields op path next ++ 0 :: behind) =
      some (path.bytes,if op.single then none else some next.bytes) ↔ Readable op path next := by
  unfold fields Readable
  cases kind : op.single with
  | true => exact parsePaths_single path kind
  | false =>
    rw [if_neg Bool.false_ne_true,append_assoc,cons_append]
    exact parsePaths_double path kind next

example : parsePaths .copy (fields .copy ⟨[97,32,98],by simp,by simp⟩
    ⟨[32],by simp,by simp⟩ ++ [0]) = some ([97,32,98],some [32]) := by decide +kernel

/-- A path of 256 letters comes back empty. -/
theorem parsePaths_long :
    parsePaths .modify (written (replicate 256 97) ++ [0]) = some ([],none) ∧
      parsePaths .modify (written (replicate 256 97) ++ [0]) ≠ some (replicate 256 97,none) := by
  decide +kernel

end BitKeeper.FastImport
