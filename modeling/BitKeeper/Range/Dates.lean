import BitKeeper.Lib.Bytes

/-!
Ranges of dates. `sccs_findDate` walks the table from the newest delta to the oldest, over the tags,
and stops at the first delta with exactly the date. The range is then taken by serial.
-/

namespace BitKeeper.Range.Dates

inductive Round where
  | up
  | down
  | exact
deriving DecidableEq

structure Readers where
  date2time : Bytes → Round → Int
  rangeCutoff : Bytes → Int
  strtoll : Bytes → Int
  scanrev : Bytes → Nat
  isKey : Bytes → Bool
  findrev : Bytes → Nat

structure Table where
  table : Nat
  tag : Nat → Bool
  date : Nat → Int
  top : Nat
  sorted : ∀ d e, d ≠ 0 → d ≤ e → e ≤ table → date d ≤ date e

def isDigit (c : UInt8) : Bool := 48 ≤ c && c ≤ 57

variable (s : Table) (env : Readers)

def rounded (round : Round) (tmp d : Nat) : Nat :=
  match round with
  | .exact => 0
  | .down => tmp
  | .up => d

/-- The walk at serial `d`; `tmp` is the last delta that was newer than the date. -/
def walkDates (date : Int) (round : Round) (tmp : Nat) : Nat → Nat
  | 0 => rounded round tmp 0
  | d + 1 =>
    if s.tag (d + 1) then walkDates date round tmp d
    else if s.date (d + 1) = date then d + 1
    else if s.date (d + 1) < date then rounded round tmp (d + 1)
    else walkDates date round (d + 1) d

def findDate (text : Bytes) (round : Round) : Nat :=
  if s.table = 0 then 0
  else if (!isDigit (text.headD 0) && text.headD 0 != 45) || 1 < env.scanrev text ||
      env.isKey text then env.findrev text
  else if text.headD 0 = 45 then walkDates s (env.rangeCutoff text.tail) round 0 s.table
  else if text.headD 0 = 48 ∧ text.tail.headD 0 = 120 then
    walkDates s (env.strtoll (text.drop 2)) .exact 0 s.table
  else walkDates s (env.date2time text round) round 0 s.table

/-- The loop that sets `D_SET`, at serial `d`. -/
def setRange (rstart : Nat) (set : Nat → Bool) : Nat → Nat → Bool
  | 0 => set
  | d + 1 =>
    if rstart ≤ d + 1 then
      setRange rstart (if s.tag (d + 1) then set else Function.update set (d + 1) true) d
    else set

/-- `range_processDates` with `RANGE_SET`: the flags behind it, none if a date is not found. -/
def processDates (set : Nat → Bool) (start : Bytes) (stop : Option Bytes) : Option (Nat → Bool) :=
  let stop := if start.headD 0 = 45 ∧ stop = none then some [] else stop
  let rstart := if start ≠ [] then findDate s env start .down else 1
  let last := stop.getD start
  let rstop := if last ≠ [] then findDate s env last .up else s.top
  if start ≠ [] ∧ rstart = 0 then none
  else if last ≠ [] ∧ rstop = 0 then none
  else some (setRange s rstart set rstop)

/-- A text that is read as a plain date. -/
structure PlainDate where
  text : Bytes
  digit : isDigit (text.headD 0) = true
  noRev : env.scanrev text ≤ 1
  noKey : env.isKey text = false
  noStamp : ¬(text.headD 0 = 48 ∧ text.tail.headD 0 = 120)

variable {s env}

/-- A delta of the file that is no tag. -/
def Table.Real (s : Table) (d : Nat) : Prop := d ≠ 0 ∧ d ≤ s.table ∧ s.tag d = false

/-- Every delta above `d` is newer, and `tmp` is the oldest of them. -/
structure Passed (s : Table) (date : Int) (tmp d : Nat) : Prop where
  newer : ∀ e, s.Real e → d < e → date < s.date e ∧ tmp ≠ 0 ∧ tmp ≤ e
  real : tmp ≠ 0 → s.Real tmp ∧ date < s.date tmp

structure Stopped (s : Table) (date : Int) (tmp d : Nat) : Prop extends Passed s date tmp d where
  older : ∀ e, s.Real e → e ≤ d → s.date e ≤ date
  stop : d ≠ 0 → s.Real d

theorem Passed.start (s : Table) (date : Int) : Passed s date 0 s.table where
  newer _ real above := absurd real.2.1 (by omega)
  real absent := absurd rfl absent

theorem Passed.skip {date : Int} {tmp d : Nat} (passed : Passed s date tmp (d + 1))
    (tag : s.tag (d + 1) = true) : Passed s date tmp d where
  newer e real above := by
    rcases Nat.lt_or_eq_of_le (Nat.succ_le_of_lt above) with higher | rfl
    · exact passed.newer e real higher
    · rw [real.2.2] at tag
      exact absurd tag Bool.false_ne_true
  real := passed.real

theorem Passed.take {date : Int} {d : Nat} (real : s.Real (d + 1)) (newer : date < s.date (d + 1)) :
    Passed s date (d + 1) d where
  newer e other above :=
    ⟨lt_of_lt_of_le newer (s.sorted (d + 1) e real.1 above other.2.1),by omega,above⟩
  real _ := ⟨real,newer⟩

theorem Passed.stop {date : Int} {tmp d : Nat} (passed : Passed s date tmp d) (real : s.Real d)
    (older : s.date d ≤ date) : Stopped s date tmp d where
  toPassed := passed
  older e other low := (s.sorted e d other.1 low real.2.1).trans older
  stop _ := real

theorem walkDates_stopped {date : Int} (round : Round) {tmp d : Nat} (bound : d ≤ s.table)
    (passed : Passed s date tmp d) :
    ∃ last stop, Stopped s date last stop ∧
      walkDates s date round tmp d = if stop ≠ 0 ∧ s.date stop = date then stop else
        rounded round last stop := by
  fun_induction walkDates s date round tmp d with
  | case1 tmp =>
    exact ⟨tmp,0,
      ⟨passed,fun e real low => absurd real.1 (by omega),fun absent => absurd rfl absent⟩,rfl⟩
  | case2 tmp d tag ih => exact ih (by omega) (passed.skip tag)
  | case3 tmp d tag same =>
    exact ⟨tmp,d + 1,passed.stop ⟨by omega,bound,by simpa using tag⟩ same.le,
      (if_pos ⟨by omega,same⟩).symm⟩
  | case4 tmp d tag differs older =>
    exact ⟨tmp,d + 1,passed.stop ⟨by omega,bound,by simpa using tag⟩ older.le,
      (if_neg fun hit => differs hit.2).symm⟩
  | case5 tmp d tag differs older ih =>
    exact ih (by omega) (.take ⟨by omega,bound,by simpa using tag⟩ (by omega))

/-- The newest delta of the date or, without one, the oldest newer delta. -/
structure Down (s : Table) (date : Int) (found : Nat) : Prop where
  real : found ≠ 0 → s.Real found ∧ date ≤ s.date found
  least : ∀ e, s.Real e → date < s.date e → found ≠ 0 ∧ found ≤ e
  exact : ∀ e, s.Real e → s.date e = date → s.date found = date ∧ e ≤ found

structure Up (s : Table) (date : Int) (found : Nat) : Prop where
  real : found ≠ 0 → s.Real found ∧ s.date found ≤ date
  greatest : ∀ e, s.Real e → s.date e ≤ date → e ≤ found

theorem walkDates_down (s : Table) (date : Int) : Down s date (walkDates s date .down 0 s.table) := by
  obtain ⟨tmp,d,stopped,result⟩ := walkDates_stopped .down le_rfl (.start s date)
  rw [result]
  have above (e : Nat) (real : s.Real e) (newer : date < s.date e) : d < e := by
    by_contra low
    have := stopped.older e real (by omega)
    omega
  have below (e : Nat) (real : s.Real e) (old : s.date e ≤ date) : e ≤ d := by
    by_contra high
    have := (stopped.newer e real (by omega)).1
    omega
  split
  · next hit =>
    exact ⟨fun _ => ⟨stopped.stop hit.1,hit.2.ge⟩,fun e real newer => ⟨hit.1,(above e real newer).le⟩,
      fun e real same => ⟨hit.2,below e real same.le⟩⟩
  · next miss =>
    refine ⟨fun found => ⟨(stopped.real found).1,(stopped.real found).2.le⟩,
      fun e real newer => (stopped.newer e real (above e real newer)).2,?_⟩
    intro e real same
    -- a delta of the date itself would be the one at which the walk stopped
    have low := below e real same.le
    have started : d ≠ 0 := by have := real.1; omega
    have upper := s.sorted e d real.1 low (stopped.stop started).2.1
    have lower := stopped.older d (stopped.stop started) le_rfl
    exact absurd ⟨started,by omega⟩ miss

theorem walkDates_up (s : Table) (date : Int) : Up s date (walkDates s date .up 0 s.table) := by
  obtain ⟨tmp,d,stopped,result⟩ := walkDates_stopped .up le_rfl (.start s date)
  rw [result,show rounded .up tmp d = d from rfl,ite_self]
  refine ⟨fun found => ⟨stopped.stop found,stopped.older d (stopped.stop found) le_rfl⟩,?_⟩
  intro e real old
  by_contra above
  have := (stopped.newer e real (by omega)).1
  omega

private theorem findDate_plain (a : PlainDate env) (round : Round) :
    findDate s env a.text round = walkDates s (env.date2time a.text round) round 0 s.table := by
  have digit := a.digit
  have noDash : a.text.headD 0 ≠ 45 := by
    intro dash
    rw [dash] at digit
    exact absurd digit (by decide)
  unfold findDate
  by_cases empty : s.table = 0
  · rw [if_pos empty,empty]
    cases round <;> rfl
  · rw [if_neg empty,if_neg (by rw [digit,a.noKey]; simpa using a.noRev),if_neg noDash,
      if_neg a.noStamp]

theorem setRange_eq (rstart : Nat) (set : Nat → Bool) (d e : Nat) :
    setRange s rstart set d e = true ↔
      set e = true ∨ (e ≠ 0 ∧ rstart ≤ e ∧ e ≤ d ∧ s.tag e = false) := by
  fun_induction setRange s rstart set d with
  | case1 set => simp; omega
  | case2 set d inside ih =>
    rw [ih]
    by_cases here : e = d + 1
    · subst here
      by_cases tag : s.tag (d + 1) = true
      · simp [tag]
      · simp [tag,inside]
    · have kept : (if s.tag (d + 1) then set else Function.update set (d + 1) true) e = set e := by
        split
        · rfl
        · exact Function.update_of_ne here true set
      have range : e ≤ d ↔ e ≤ d + 1 := by omega
      rw [kept,range]
  | case3 set d outside =>
    constructor
    · exact Or.inl
    · rintro (before | ⟨_,low,high,_⟩)
      · exact before
      · omega

/-- Every call sets exactly the deltas of the range, and fails only without a delta at an end. -/
def SelectsExactly (s : Table) (env : Readers) (a b : PlainDate env) : Prop :=
  let lo := env.date2time a.text .down
  let hi := env.date2time b.text .up
  (∀ set after, processDates s env set a.text (some b.text) = some after →
    ∀ d, after d = true ↔ set d = true ∨ (s.Real d ∧ lo ≤ s.date d ∧ s.date d ≤ hi)) ∧
  ∀ set, processDates s env set a.text (some b.text) = none →
    (∀ d, s.Real d → s.date d < lo) ∨ ∀ d, s.Real d → hi < s.date d

private theorem processDates_plain (a b : PlainDate env) :
    ∃ rstart rstop, Down s (env.date2time a.text .down) rstart ∧
      Up s (env.date2time b.text .up) rstop ∧
      ∀ set, processDates s env set a.text (some b.text) =
        if rstart = 0 then none else if rstop = 0 then none else
          some (setRange s rstart set rstop) := by
  have written (c : PlainDate env) : c.text ≠ [] := by
    intro empty
    have digit := c.digit
    rw [empty] at digit
    exact absurd digit (by decide)
  refine ⟨_,_,walkDates_down s _,walkDates_up s _,?_⟩
  intro set
  unfold processDates
  simp only [reduceCtorEq,and_false,if_false,Option.getD_some,findDate_plain,ne_eq,written,
    not_false_eq_true,true_and,if_true]

/-- The deltas of the date of the start are found only if there is one of them at most. -/
theorem processDates_iff (s : Table) (env : Readers) (a b : PlainDate env) :
    SelectsExactly s env a b ↔
      (env.date2time a.text .down ≤ env.date2time b.text .up →
        ∀ d e, s.Real d → s.Real e → s.date d = env.date2time a.text .down →
          s.date e = env.date2time a.text .down → d = e) := by
  obtain ⟨rstart,rstop,down,up,run⟩ := processDates_plain (s := s) a b
  unfold SelectsExactly
  simp only [run]
  generalize env.date2time a.text .down = lo at *
  generalize env.date2time b.text .up = hi at *
  constructor
  · intro exactly order d e real other atLo atLo'
    -- the newest delta of the date is the start of the range, so that an older one is not set
    have newest (e : Nat) (other : s.Real e) (hit : s.date e = lo) : e = rstart := by
      have limit := (down.exact e other hit).2
      have started : rstart ≠ 0 := by have := other.1; omega
      have stopped : rstop ≠ 0 := by
        have := up.greatest e other (by omega)
        have := other.1
        omega
      have set := (exactly.1 (fun _ => false) _ (by rw [if_neg started,if_neg stopped]) e).mpr
        (.inr ⟨other,hit.ge,by omega⟩)
      rw [setRange_eq] at set
      rcases set with impossible | ⟨_,low,_⟩
      · cases impossible
      · omega
    rw [newest d real atLo,newest e other atLo']
  · intro single
    constructor
    · intro set after result d
      split_ifs at result with started stopped
      rw [← Option.some.inj result,setRange_eq]
      obtain ⟨begin,late⟩ := down.real started
      obtain ⟨finish,early⟩ := up.real stopped
      refine or_congr_right ⟨?_,?_⟩
      · rintro ⟨real,low,high,tag⟩
        have first := s.sorted rstart d begin.1 low (high.trans finish.2.1)
        have last := s.sorted d rstop real high finish.2.1
        exact ⟨⟨real,high.trans finish.2.1,tag⟩,by omega,by omega⟩
      · rintro ⟨real,low,high⟩
        refine ⟨real.1,?_,up.greatest d real high,real.2.2⟩
        rcases low.eq_or_lt with hit | newer
        · rw [single (by omega) rstart d begin real (down.exact d real hit.symm).1 hit.symm]
        · exact (down.least d real newer).2
    · intro set result
      split_ifs at result with started stopped
      · left
        intro d real
        by_contra late
        rcases (not_lt.mp late).eq_or_lt with hit | newer
        · have := (down.exact d real hit.symm).2
          exact real.1 (by omega)
        · exact (down.least d real newer).1 started
      · right
        intro d real
        by_contra early
        have := up.greatest d real (by omega)
        have := real.1
        omega

/-- Two deltas of one second, and the date 19700101000005 in the zone of its reader. -/
def twins : Table where
  table := 2
  tag _ := false
  date _ := 5
  top := 2
  sorted _ _ _ _ _ := le_rfl

def atFive : Readers where
  date2time _ _ := 5
  rangeCutoff _ := 0
  strtoll _ := 0
  scanrev _ := 1
  isKey _ := false
  findrev _ := 0

def five : PlainDate atFive where
  text := [49,57,55,48,48,49,48,49,48,48,48,48,48,53]
  digit := rfl
  noRev := le_rfl
  noKey := rfl
  noStamp := by decide

theorem processDates_twins : ¬SelectsExactly twins atFive five five := by
  intro exactly
  have set :=
    (exactly.1 (fun _ => false) _ rfl 1).mpr (.inr ⟨⟨by decide,by decide,rfl⟩,le_rfl,le_rfl⟩)
  exact absurd set (by decide)

end BitKeeper.Range.Dates
