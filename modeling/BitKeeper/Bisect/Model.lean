import BitKeeper.Range.Algebra

/-!
`bk bisect`: every candidate gets a score by a walk to its first parent; if the best candidate has
been skipped, one of the others is drawn at random.
-/

namespace BitKeeper.Bisect

open Range Function

inductive Ret where
  | noMore
  | tryNext
  | noAnswer
deriving DecidableEq, Repr

/-- What may stop the program; `unfinished` is a loop cut off by its fuel. -/
inductive Fault where
  | assertion
  | overrun
  | unfinished
deriving DecidableEq, Repr

/-- `opts.skip` and `opts.score`. -/
structure Opts where
  skip : List Nat
  score : Nat → Int

/-- `sortArray(slist, sortFn)`: `qsort` by score, high to low. -/
structure SortArray where
  sort : List (Nat × Int) → List (Nat × Int)
  perm : ∀ list, (sort list).Perm list
  sorted : ∀ list, (sort list).Pairwise fun a b => b.2 ≤ a.2

/-! ### Single precision -/

/-- An integer as a `float`: rounded to 24 significant bits, ties to even. -/
def toFloat (m : Nat) : Nat :=
  let spare := m.log2 + 1 - 24
  let ulp := 2 ^ spare
  let down := m / ulp * ulp
  if 2 * (m % ulp) < ulp then down
  else if 2 * (m % ulp) = ulp ∧ m / ulp % 2 = 0 then down
  else down + ulp

def RAND_MAX : Nat := 2147483647

/-- The index drawn from `n` pairs by the random number `r`. As a float `RAND_MAX` is a power of
two, so the products are rounded as integers over its square; an index below 1 and above `n` at once
never comes up. -/
def pickIndex (r n : Nat) : Nat :=
  let f := toFloat r
  let f := toFloat (f * f)
  toFloat (f * toFloat n) / (toFloat RAND_MAX * toFloat RAND_MAX) + 1

/-! ### The next cset -/

/-- `while (d1 = walkrevs(&wd)) if (FLAGS(s, d1) & D_SET) n++`. -/
def countLoop (g : Graph) : Nat → Walk → Int → Walk × Int
  | 0, w, n => (w, n)
  | fuel + 1, w, n =>
    let turn := walkrevs g w
    if turn.2 = 0 then (turn.1, n)
    else countLoop g fuel turn.1 (if (turn.1.s.flags turn.2).set then n + 1 else n)

def single (d : Nat) : List Nat := if d = 0 then [] else [d]

def scoreAt (g : Graph) (state : Sccs × (Nat → Int)) (d : Nat) : Sccs × (Nat → Int) :=
  let s := state.1.update d fun f => { f with set := true }
  let e := g.parent d
  let n := state.2 e
  let wd := countLoop g (g.table + 2) (walkrevs_setup g s (single e) (some (single d)) Mode.plain) n
  (walkrevs_done wd.1, update state.2 d wd.2)

structure Best where
  s : Sccs
  score : Nat → Int
  highscore : Nat

def bestAt (nleft : Int) (b : Best) (d : Nat) : Best :=
  let s := b.s.update d fun f => { f with set := false }
  let n := b.score d
  let score := update b.score d (min n (nleft - n + 1))
  { s := s, score := score
    highscore := if score b.highscore < score d then d else b.highscore }

/-- `EACH(list) score[list[i]] = 0`. -/
def zeroAll (score : Nat → Int) (list : List Nat) : Nat → Int :=
  list.foldl (fun score d => update score d 0) score

/-- `if (score[d]) score[d] = 0` for the skipped ones. -/
def dropSkipped (score : Nat → Int) (skip : List Nat) : Nat → Int :=
  skip.foldl (fun score d => if score d ≠ 0 then update score d 0 else score) score

structure Out where
  s : Sccs
  op : Opts
  ret : Ret
  next : Nat
  nleft : Nat

/-- From the best candidate on: it is the next one unless it was skipped. -/
def choose (q : SortArray) (op : Opts) (candlist : List Nat) (best : Best) (rand : Nat) :
    Except Fault Out :=
  let nleft := candlist.length
  if best.highscore = 0 then .error .assertion
  else if op.skip = [] then
    .ok ⟨best.s,{ op with score := zeroAll best.score candlist },.tryNext,best.highscore,nleft⟩
  else
    let score := dropSkipped best.score op.skip
    let op : Opts := { op with score := zeroAll score candlist }
    if score best.highscore ≠ 0 then .ok ⟨best.s,op,.tryNext,best.highscore,nleft⟩
    else
      let slist := (candlist.filter fun d => decide (score d ≠ 0)).map fun d => (d, score d)
      if slist = [] then .ok ⟨best.s,op,.noAnswer,best.highscore,0⟩
      else
        match (q.sort slist)[pickIndex rand slist.length - 1]? with
        | none => .error .overrun
        | some p => .ok ⟨best.s,op,.tryNext,p.1,slist.length⟩

def bisect (q : SortArray) (g : Graph) (s : Sccs) (op : Opts) (leftrevs : List Nat)
    (rightrev : Nat) (rand : Nat) : Except Fault Out :=
  if leftrevs = [] ∨ rightrev = 0 then .error .assertion
  else
    match walkrevs_collect g s leftrevs (some (single rightrev)) Mode.plain with
    | (_, []) => .error .assertion
    | (s, [tip]) => .ok ⟨s,{ op with score := zeroAll op.score [tip] },.noMore,tip,0⟩
    | (s, _ :: candlist) =>
      let scored := candlist.reverse.foldl (scoreAt g) (s, op.score)
      let best := candlist.foldl (bestAt candlist.length) ⟨scored.1,scored.2,0⟩
      choose q op candlist best rand

/-! ### The loop -/

inductive Script where
  | success
  | fail
  | untestable
  | abort
deriving DecidableEq, Repr

structure Turn where
  leftrevs : List Nat
  right : Nat
  skip : List Nat
  next : Nat
  nleft : Nat
  answer : Script
deriving DecidableEq, Repr

inductive Final where
  | found (next : Nat)
  | noAnswer
  | aborted
deriving DecidableEq, Repr

structure Run where
  s : Sccs
  op : Opts
  leftrevs : List Nat
  right : Nat

/-- The state after the script has answered for `next`. -/
def answered (run : Run) (next : Nat) : Script → Run
  | .success => { run with leftrevs := run.leftrevs ++ [next] }
  | .fail => { run with right := next }
  | .untestable => { run with op := { run.op with skip := run.op.skip ++ [next] } }
  | .abort => run

def bisectLoop (q : SortArray) (g : Graph) (script : Nat → Nat → Script) (rand : Nat → Nat) :
    Nat → Nat → Run → Except Fault (List Turn × Final)
  | 0, _, _ => .error .unfinished
  | fuel + 1, k, run =>
    (bisect q g run.s run.op run.leftrevs run.right (rand k)).bind fun out =>
      match out.ret with
      | .noMore => .ok ([], .found out.next)
      | .noAnswer => .ok ([], .noAnswer)
      | .tryNext =>
        let answer := script k out.next
        let turn : Turn :=
          { leftrevs := run.leftrevs, right := run.right, skip := run.op.skip, next := out.next,
            nleft := out.nleft, answer := answer }
        if answer = .abort then .ok ([turn], .aborted)
        else
          (bisectLoop q g script rand fuel (k + 1)
            (answered ⟨out.s,out.op,run.leftrevs,run.right⟩ out.next answer)).map
            fun rest => (turn :: rest.1, rest.2)

def bisect_main (q : SortArray) (g : Graph) (s : Sccs) (rstart rstop : Nat)
    (script : Nat → Nat → Script) (rand : Nat → Nat) (fuel : Nat) :
    Except Fault (List Turn × Final) :=
  bisectLoop q g script rand fuel 0 ⟨s,⟨[],fun _ => 0⟩, [rstart],rstop⟩

end BitKeeper.Bisect
