import BitKeeper.Lib.Lines
import BitKeeper.Libdiff.Diff

/-!
The printing of diffs in `ndiff.c`, under the options that `bk diff` passes. The number of context
lines is an `int`: the option parser writes -1 for zero, and `diff_cleanOpts` turns that into zero and
a zero into the default.
-/

namespace BitKeeper.Ndiff

open Bytes Libdiff

/-- A run without a result; `overflow` is a sum with the context that is no `int`. -/
inductive Fault where
  | stop (s : Stop)
  | overflow
deriving DecidableEq

def cint (x : Int) : Except Fault Int :=
  if -2147483648 ≤ x ∧ x < 2147483648 then .ok x else .error .overflow

/-! ### Options -/

structure DfOpt where
  out_unified : Bool
  out_rcs : Bool
  out_show_c_func : Bool
  minimal : Bool
  strip_trailing_cr : Bool
  ignore_trailing_cr : Bool
  /-- What `pcre_exec` says of a line. -/
  pattern : Option (Bytes → Bool)
  context : Int

/-- `i = strtoul(optarg, &p, 10)` for the digits of a number. -/
def strtoul (n : Nat) : Int := Int.bmod (min n (2 ^ 64 - 1) : Nat) (2 ^ 32)

def optU (n : Nat) (dop : DfOpt) : DfOpt :=
  { dop with out_unified := true, context := if strtoul n ≠ 0 then strtoul n else -1 }

def optN (dop : DfOpt) : DfOpt := { dop with out_rcs := true, out_unified := false }

/-- `^[[:alpha:]$_]` -/
def cFunction (line : Bytes) : Bool := match line with
  | [] => false
  | c :: _ =>
    (65 ≤ c.toNat && c.toNat ≤ 90) || (97 ≤ c.toNat && c.toNat ≤ 122) || c.toNat = 36 ||
      c.toNat = 95

def diff_cleanOpts (opts : DfOpt) : Option DfOpt :=
  if opts.out_unified ∧ opts.out_rcs then none
  else
    some { opts with
      strip_trailing_cr := opts.strip_trailing_cr || opts.ignore_trailing_cr
      pattern := if opts.out_show_c_func ∧ opts.pattern.isNone then some cFunction else opts.pattern
      context := if opts.context ≠ 0 then (if opts.context < 0 then 0 else opts.context) else 3 }

/-! ### Lines -/

def isspace (c : UInt8) : Bool := (9 ≤ c.toNat && c.toNat ≤ 13) || c.toNat = 32

def chomp (s : Bytes) : Bytes := (s.reverse.dropWhile fun c => c = newline ∨ c = 13).reverse

def trim (s : Bytes) : Bytes := ((s.dropWhile isspace).reverse.dropWhile isspace).reverse

def dropCrs (s : Bytes) : Bytes := (s.reverse.dropWhile fun c => c = 13).reverse

/-- What `saveline` gets for a line. At the end of the file a newline takes the place of CRs. -/
def savedLine (strip ignore : Bool) (line : Bytes) : Bytes :=
  if line.getLast? = some newline then
    if strip then dropCrs line.dropLast ++ [newline] else line
  else if ignore ∧ line.getLast? = some 13 then dropCrs line ++ [newline]
  else line

def DfOpt.saved (dop : DfOpt) : Bytes → Bytes :=
  savedLine dop.strip_trailing_cr dop.ignore_trailing_cr

def savedLines (dop : DfOpt) (text : Bytes) : List Bytes := (lines text).map dop.saved

/-- `fn_defs`: the numbers and texts of the lines that match; one without a newline is not tried. -/
def fnDefs (dop : DfOpt) (left : Bytes) : List (Nat × Bytes) :=
  match dop.pattern with
  | none => []
  | some re => ((lines left).zipIdx 1).filterMap fun line =>
    if line.1.getLast? = some newline ∧ re (dop.saved line.1) then
      some (line.2, trim (chomp (dop.saved line.1)))
    else none

/-- `"\ No newline at end of file\n"`. -/
def noNewline : Bytes :=
  [92,32,78,111,32,110,101,119,108,105,110,101,32,97,116,32,101,110,100,32,111,102,32,102,105,
    108,101,10]

/-- A line; `warn` is `PRN_WARN_NL`. -/
def printLine (mark : Bytes) (warn : Bool) (line : Bytes) : Bytes :=
  mark ++ (line ++ if warn ∧ line.getLast? ≠ some newline then newline :: noNewline else [])

/-- The lines from `start` on, which are counted from one. -/
def printHunk (mark : Bytes) (start len : Nat) (lines : List Bytes) (warn : Bool) : Bytes :=
  ((lines.drop (start - 1)).take len).flatMap (printLine mark warn)

def after (start len : Nat) : Nat := if len = 0 then start - 1 else start

/-! ### Styles -/

section Styles
variable (left right : List Bytes)

def printStd (hunks : List Hunk) : Bytes := hunks.flatMap fun h =>
    decimal (after h.lstart h.llen) ++ (if 1 < h.llen then 44 :: decimal (h.lend - 1) else []) ++
      (if h.llen ≠ 0 ∧ h.rlen ≠ 0 then [99] else if h.llen ≠ 0 then [100] else if h.rlen ≠ 0 then
        [97] else []) ++
      decimal (after h.rstart h.rlen) ++ (if 1 < h.rlen then 44 :: decimal (h.rend - 1) else []) ++
        [newline] ++
      printHunk [60,32] h.lstart h.llen left true ++
      (if h.llen ≠ 0 ∧ h.rlen ≠ 0 then [45,45,45,newline] else []) ++
      printHunk [62,32] h.rstart h.rlen right true

/-- `d%d %d` and `a%d %d`. -/
def command (letter : UInt8) (line count : Nat) : Bytes :=
  letter :: (decimal line ++ (32 :: (decimal count ++ [newline])))

def printRCS (hunks : List Hunk) : Bytes := hunks.flatMap fun h =>
    (if h.llen ≠ 0 then command 100 h.lstart h.llen else []) ++
      (if h.rlen ≠ 0 then command 97 (h.lend - 1) h.rlen ++ printHunk [] h.rstart h.rlen right
        false else [])

/-- `-%d,%d` without a count of one. -/
def span (start len : Nat) : Bytes :=
  decimal (after start len) ++ if len ≠ 1 then 44 :: decimal len else []

def title (fn_defs : List (Nat × Bytes)) (idx : Nat) : Bytes :=
  match fn_defs.reverse.find? (fun def_ => def_.1 < idx) with
  | some def_ => 32 :: def_.2.take 40
  | none => []

def blockHeader (fn_defs : List (Nat × Bytes)) (first : Nat) (bounds : Hunk) : Bytes :=
  [64,64,32,45] ++ (span bounds.lstart bounds.llen ++ ([32,43] ++ (span bounds.rstart bounds.rlen ++
    ([32,64,64] ++ (title fn_defs first ++ [newline])))))

def mkCommon (bounds : Hunk) (from_ upto : Option Hunk) : Except Fault Hunk :=
  (diff_mkCommon bounds from_ upto).mapError Fault.stop

/-- The hunks of a block with the common lines between them. -/
def blockBody (bounds : Hunk) : Option Hunk → List Hunk → Except Fault Bytes
  | from_, [] =>
    (mkCommon bounds from_ none).map fun common => printHunk [32] common.lstart common.llen left true
  | from_, h :: rest =>
    (mkCommon bounds from_ (some h)).bind fun common =>
      (blockBody bounds (some h) rest).map fun later =>
        printHunk [32] common.lstart common.llen left
          true ++ (printHunk [45] h.lstart h.llen left true ++
          (printHunk [43] h.rstart h.rlen right true ++ later))

def bound (context : Int) (start end_ rangeStart rangeEnd : Nat) : Except Fault (Nat × Nat) :=
  (cint (start - context)).bind fun m =>
    (cint (end_ + context)).map fun (n : Int) =>
      ((max m rangeStart).toNat, (min n rangeEnd - max m rangeStart).toNat)

variable (context : Int) (fn_defs : List (Nat × Bytes)) (range : Hunk)

def printUBlock (hunks : List Hunk) : Except Fault Bytes := match hunks.head?, hunks.getLast? with
  | some first, some last =>
    (bound context first.lstart last.lend range.lstart range.lend).bind fun l =>
      (bound context first.rstart last.rend range.rstart range.rend).bind fun r =>
        let bounds : Hunk := { lstart := l.1, llen := l.2, rstart := r.1, rlen := r.2 }
        (blockBody left right bounds none hunks).map fun body =>
          blockHeader fn_defs first.lstart bounds ++ body
  | _, _ => .error (.stop .assertion)

def unifiedLoop : List Hunk → List Hunk → Int → Except Fault Bytes
  | [], set, _ => if set ≠ [] then printUBlock left right context fn_defs range set else .ok []
  | h :: rest, set, startCommon =>
    (cint (h.lstart - context)).bind fun endCommon =>
      (cint (endCommon - startCommon)).bind fun gap =>
        (cint (h.lend + context)).bind fun startCommon =>
          if 1 < gap ∧ set ≠ [] then
            (printUBlock left right context fn_defs range set).bind fun block =>
              (unifiedLoop rest [h] startCommon).map fun later => block ++ later
          else unifiedLoop rest (set ++ [h]) startCommon

def printUnified (hunks : List Hunk) : Except Fault Bytes :=
  unifiedLoop left right context fn_defs range hunks [] range.lstart

end Styles

/-! ### A diff -/

/-- What the differ takes from elsewhere: hash and cost of lines, and what `malloc` returns. -/
structure Env where
  hash : Bytes → Nat
  cost : List Bytes → List Bytes → Side → Nat → Pos → Nat
  vf : Int → Int
  vr : Int → Int

def cmpLine (a b : Bytes) : Bool := a == b

def diffLines (env : Env) (minimal : Bool) (left right : List Bytes) : Except Stop (List Hunk) :=
  diff_items { dcmp := cmpLine, dhash := env.hash } 1 1 minimal (some (env.cost left right)) left
    right env.vf env.vr

def printHunks (dop : DfOpt) (fn_defs : List (Nat × Bytes)) (left right : List Bytes)
    (hunks : List Hunk) : Except Fault Bytes :=
  if dop.out_unified then
    printUnified left right dop.context fn_defs
      { lstart := 1, llen := left.length, rstart := 1, rlen := right.length } hunks
  else if dop.out_rcs then .ok (printRCS right hunks)
  else .ok (printStd left right hunks)

/-- The return value and the output of `diff_mem`, and the options as it leaves them. -/
def diff_mem (env : Env) (dop : DfOpt) (left right : Bytes) : DfOpt × Except Fault (Nat × Bytes) :=
  match diff_cleanOpts dop with
  | none => (dop, .ok (2, []))
  | some dop =>
    (dop, if left = right then .ok (0, [])
      else if 0 ∈ left ∨ 0 ∈ right then .ok (1, [])
      else
        ((diffLines env dop.minimal (savedLines dop left) (savedLines dop right)).mapError
          Fault.stop).bind fun hunks =>
            if hunks = [] then .ok (0, [])
            else
              (printHunks dop (fnDefs dop left) (savedLines dop left) (savedLines dop right)
                hunks).map fun out => (1, out))

def doDiff (env : Env) (dop : DfOpt) (file : Bytes × Bytes) : DfOpt × Except Fault (Nat × Bytes) :=
  diff_mem env { dop with ignore_trailing_cr := true } file.1 file.2

def diffEach (env : Env) : DfOpt → List (Bytes × Bytes) → List (Except Fault (Nat × Bytes))
  | _, [] => []
  | dop, file :: rest => (doDiff env dop file).2 :: diffEach env (doDiff env dop file).1 rest

/-- `diff_main` behind its options; nothing for the usage message. -/
def diff_main (env : Env) (dop : DfOpt) (files : List (Bytes × Bytes)) :
    Option (List (Except Fault (Nat × Bytes))) :=
  (diff_cleanOpts dop).map fun dop => diffEach env dop files

end BitKeeper.Ndiff
