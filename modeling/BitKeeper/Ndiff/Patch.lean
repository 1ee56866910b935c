import BitKeeper.Ndiff.Model

/-!
What a reader does with a diff. A unified diff is read by the counts of the block headers and
applied without any offset; the commands of an RCS script name lines of the old text.
-/

namespace BitKeeper.Ndiff

open Bytes

inductive Tag where
  | context
  | delete
  | insert
deriving DecidableEq

namespace Tag

def mark : Tag → UInt8
  | context => 32
  | delete => 45
  | insert => 43

/-- The lines of the old and of the new text. -/
def old : Tag → Nat
  | insert => 0
  | _ => 1

def new : Tag → Nat
  | delete => 0
  | _ => 1

end Tag

structure Block where
  lnum : Nat
  lcount : Nat
  rnum : Nat
  rcount : Nat
  body : List (Tag × Bytes)
deriving DecidableEq

namespace Block

/-- An empty range is numbered by the line before it. -/
def lstart (b : Block) : Nat := if b.lcount = 0 then b.lnum + 1 else b.lnum

def rstart (b : Block) : Nat := if b.rcount = 0 then b.rnum + 1 else b.rnum

def lend (b : Block) : Nat := b.lstart + b.lcount

def rend (b : Block) : Nat := b.rstart + b.rcount

/-- The number of context lines in front and at the end. -/
def lead (b : Block) : Nat := (b.body.takeWhile fun line => line.1 = .context).length

def trail (b : Block) : Nat := (b.body.reverse.takeWhile fun line => line.1 = .context).length

/-- The old lines at the first change and behind the last one. -/
def firstChange (b : Block) : Nat := b.lstart + b.lead

def lastChange (b : Block) : Nat := b.lend - b.trail

end Block

def readSpan (s : Bytes) : Option ((Nat × Nat) × Bytes) := match readDecimal s with
  | none => none
  | some (num, rest) =>
    if rest.head? = some 44 then (readDecimal rest.tail).map fun read => ((num, read.1), read.2)
    else some ((num, 1), rest)

/-- `@@ -%d,%d +%d,%d @@` -/
def readHeader (line : Bytes) : Option ((Nat × Nat) × (Nat × Nat)) :=
  (expect [64,64,32,45] line).bind fun s =>
    (readSpan s).bind fun l =>
      (expect [32,43] l.2).bind fun s =>
        (readSpan s).bind fun r => (expect [32,64,64] r.2).map fun _ => (l.1, r.1)

def readTag (mark : UInt8) : Option Tag :=
  if mark = 32 then some .context else if mark = 45 then some .delete else if mark = 43 then
    some .insert else none

def isMark (line : Bytes) : Bool := line.head? = some 92

/-- A line behind which the newline is denied loses it. -/
def joinMarks : List Bytes → List Bytes
  | [] => []
  | line :: rest =>
    match joinMarks rest with
    | [] => [line]
    | next :: more => if isMark next then line.dropLast :: more else line :: next :: more

/-- The lines that are left to a block with these counts, and the blocks behind
it. -/
def readBlocks : List Bytes → Nat → Nat → Option (List (Tag × Bytes) × List Block)
  | [], lcount, rcount => if lcount = 0 ∧ rcount = 0 then some ([], []) else none
  | line :: rest, lcount, rcount =>
    if lcount = 0 ∧ rcount = 0 then
      (readHeader line).bind fun header =>
        (readBlocks rest header.1.2 header.2.2).map fun read =>
          ([], ⟨header.1.1,header.1.2,header.2.1,header.2.2,read.1⟩ :: read.2)
    else
      (line.head?.bind readTag).bind fun tag =>
        if tag.old ≤ lcount ∧ tag.new ≤ rcount then
          (readBlocks rest (lcount - tag.old) (rcount - tag.new)).map fun read =>
            ((tag, line.tail) :: read.1, read.2)
        else none

def readUnified (out : Bytes) : Option (List Block) :=
  (readBlocks (joinMarks (lines out)) 0 0).map Prod.snd

def applyBody : List (Tag × Bytes) → List Bytes → Option (List Bytes × List Bytes)
  | [], rest => some ([], rest)
  | (.insert, line) :: body, rest => (applyBody body rest).map fun done => (line :: done.1, done.2)
  | (.context, line) :: body, old :: rest =>
    if old = line then (applyBody body rest).map fun done => (line :: done.1, done.2) else none
  | (.delete, line) :: body, old :: rest => if old = line then applyBody body rest else none
  | _ :: _, [] => none

/-- The new text from the lines `x` and `y` on. -/
def applyBlocks : Nat → Nat → List Block → List Bytes → Option (List Bytes)
  | _, _, [], rest => some rest
  | x, y, b :: more, rest =>
    if x ≤ b.lstart ∧ b.lstart + y = b.rstart + x ∧ b.lstart - x ≤ rest.length then
      (applyBody b.body (rest.drop (b.lstart - x))).bind fun done =>
        (applyBlocks b.lend b.rend more done.2).map fun later =>
          rest.take (b.lstart - x) ++ (done.1 ++ later)
    else none

/-- Where the next change is, or the end of the old text. -/
def nextChange (total : Nat) : List Block → Nat
  | [] => total + 1
  | b :: _ => b.firstChange

/-- Every block has a change, and around it the context lines that are wanted and there; `prev` ends
the change before. -/
def Edges (n total : Nat) : Nat → List Block → Prop
  | _, [] => True
  | prev, b :: more =>
    (∃ line ∈ b.body, line.1 ≠ .context) ∧ b.lead = min n (b.firstChange - prev) ∧
      b.trail = min n (nextChange total more - b.lastChange) ∧ Edges n total b.lastChange more

/-- The output is a unified diff with `n` lines of context. -/
structure UnifiedCorrect (n : Nat) (left right out : Bytes) (blocks : List Block) : Prop where
  read : readUnified out = some blocks
  ordered : blocks.Pairwise fun a b => a.lend ≤ b.lstart ∧ a.rend ≤ b.rstart
  edges : Edges n (lines left).length 1 blocks
  applied : (applyBlocks 1 1 blocks (lines left)).map List.flatten = some right

inductive Command where
  | delete (line count : Nat)
  | append (line : Nat) (text : List Bytes)
deriving DecidableEq

def Command.line : Command → Nat
  | delete line _ => line
  | append line _ => line

/-- The line numbers increase, but for lines that replace a single one. -/
def Command.Before (a b : Command) : Prop :=
  a.line < b.line ∨ ∃ line text, a = .delete line 1 ∧ b = .append line text

def readCommand (line : Bytes) : Option (UInt8 × Nat × Nat) := line.head?.bind fun letter =>
    (readDecimal line.tail).bind fun num =>
      (expect [32] num.2).bind fun s =>
        (readDecimal s).bind fun count =>
          if count.2 = [newline] then some (letter, num.1, count.1) else none

/-- The lines that are left to an `append`, and the commands behind it. -/
def readCommands : List Bytes → Nat → Option (List Bytes × List Command)
  | [], wanted => if wanted = 0 then some ([], []) else none
  | line :: rest, 0 =>
    (readCommand line).bind fun command =>
      if command.1 = 100 then
        (readCommands rest 0).map fun read => ([], .delete command.2.1 command.2.2 :: read.2)
      else if command.1 = 97 then
        (readCommands rest command.2.2).map fun read => ([], .append command.2.1 read.1 :: read.2)
      else none
  | line :: rest, wanted + 1 => (readCommands rest wanted).map fun read => (line :: read.1, read.2)

def readRCS (out : Bytes) : Option (List Command) := (readCommands (lines out) 0).map Prod.snd

/-- The new text from the old line `x` on. -/
def applyRCS : Nat → List Command → List Bytes → Option (List Bytes)
  | _, [], rest => some rest
  | x, .delete line count :: more, rest =>
    if x ≤ line ∧ line - x + count ≤ rest.length then
      (applyRCS (line + count) more (rest.drop (line - x + count))).map (rest.take (line - x) ++ ·)
    else none
  | x, .append line text :: more, rest =>
    if x ≤ line + 1 ∧ line + 1 - x ≤ rest.length then
      (applyRCS (line + 1) more (rest.drop (line + 1 - x))).map fun later =>
        rest.take (line + 1 - x) ++ (text ++ later)
    else none

structure RcsCorrect (left right out : Bytes) (commands : List Command) : Prop where
  read : readRCS out = some commands
  ordered : commands.Pairwise Command.Before
  applied : (applyRCS 1 commands (lines left)).map List.flatten = some right

end BitKeeper.Ndiff
