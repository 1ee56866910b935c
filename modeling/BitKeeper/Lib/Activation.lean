import Mathlib

/-!
Switching the nodes of a graph on and off. A walk from the newest node down hands a lineage mark
along the edges, and a node that is on notes a signed list of older nodes: the first note of a node
counts. A walk may also be given its answers; notes made in advance can force the answers that the
marks would not give.
-/

namespace BitKeeper.Activation

structure Mark where
  par : Bool
  inc : Bool
  excl : Bool
deriving DecidableEq, Repr

namespace Mark

def blank : Mark := ⟨false,false,false⟩

def active (m : Mark) : Bool := (m.par && !m.excl) || m.inc

def listed (m : Mark) : Bool := m.inc || m.excl

def inherit (m : Mark) : Mark := { m with par := true }

def note (m : Mark) (plus : Bool) : Mark :=
  if m.listed then m else { m with inc := plus, excl := !plus }

end Mark

abbrev Notes := List (Bool × Nat)

def sign (notes : Notes) (e : Nat) : Option Bool := (notes.find? fun c => c.2 == e).map Prod.fst

theorem sign_cons (c : Bool × Nat) (rest : Notes) (e : Nat) :
    sign (c :: rest) e = if c.2 = e then some c.1 else sign rest e := by
  unfold sign
  rw [List.find?_cons]
  by_cases same : c.2 = e
  · rw [if_pos same,beq_iff_eq.mpr same]
    rfl
  · rw [if_neg same,beq_false_of_ne same]

variable {e : Nat}

theorem sign_none {notes : Notes} : sign notes e = none ↔ ∀ c ∈ notes, c.2 ≠ e := by
  unfold sign
  rw [Option.map_eq_none_iff,List.find?_eq_none]
  simp only [beq_iff_eq,ne_eq]

theorem sign_some {notes : Notes} {plus : Bool} (found : sign notes e = some plus) :
    (plus, e) ∈ notes := by
  induction notes with
  | nil => exact absurd found (by simp [sign])
  | cons c rest ih =>
    rw [sign_cons] at found
    split at found
    next same =>
      have plusEq : c.1 = plus := Option.some.inj found
      rw [show (plus, e) = c from Prod.ext plusEq.symm same.symm]
      exact List.mem_cons_self
    · exact List.mem_cons_of_mem c (ih found)

def noted (m : Mark) : Option Bool → Mark
  | none => m
  | some plus => m.note plus

theorem note_listed (m : Mark) (plus : Bool) : (m.note plus).listed = true := by
  unfold Mark.note
  split
  · assumption
  · cases plus <;> rfl

theorem noted_note (m : Mark) (plus : Bool) (later : Option Bool) :
    noted (m.note plus) later = m.note plus := by
  cases later with
  | none => rfl
  | some other => exact if_pos (note_listed m plus)

structure Net where
  skip : Nat → Bool
  lineage : Nat → List Nat
  notes : Nat → Notes
  lineage_lt : ∀ d, ∀ e ∈ lineage d, e < d
  notes_lt : ∀ d, ∀ c ∈ notes d, c.2 < d

variable (net : Net)

def hand (d : Nat) (m : Nat → Mark) (e : Nat) : Mark :=
  if (m d).par = true ∧ e ∈ net.lineage d then (m e).inherit else m e

def step (on : Bool) (d : Nat) (m : Nat → Mark) (e : Nat) : Mark :=
  if net.skip d then m e
  else if on then noted (hand net d m e) (sign (net.notes d) e)
  else hand net d m e

def walkWith (answer : Nat → Bool) : Nat → (Nat → Mark) → Nat → Mark
  | 0, m => m
  | d + 1, m => walkWith answer d (step net (answer (d + 1)) (d + 1) m)

def walk : Nat → (Nat → Mark) → Nat → Mark
  | 0, m => m
  | d + 1, m => walk d (step net (m (d + 1)).active (d + 1) m)

variable {net} {on : Bool} {d : Nat}

theorem step_above (m : Nat → Mark) (above : d ≤ e) : step net on d m e = m e := by
  have noLine : ¬ ((m d).par = true ∧ e ∈ net.lineage d) :=
    fun both => absurd (net.lineage_lt d e both.2) (by omega)
  have noNote : sign (net.notes d) e = none :=
    sign_none.mpr fun c inside same => absurd (net.notes_lt d c inside) (by omega)
  unfold step hand
  rw [noNote,if_neg noLine]
  split
  · rfl
  · split <;> rfl

variable {m m' : Nat → Mark}

theorem step_congr (top : m d = m' d) (same : m e = m' e) :
    step net on d m e = step net on d m' e := by
  unfold step hand
  rw [top,same]

theorem step_blank (blank : m d = Mark.blank) : step net false d m e = m e := by
  have off : ¬ ((m d).par = true ∧ e ∈ net.lineage d) := by
    rw [blank]
    exact fun both => Bool.false_ne_true both.1
  unfold step hand
  rw [if_neg Bool.false_ne_true,if_neg off]
  split <;> rfl

variable {answer : Nat → Bool}

theorem walkWith_above (m : Nat → Mark) (above : d ≤ e) : walkWith net answer d m e = m e := by
  induction d generalizing m with
  | zero => rfl
  | succ d ih =>
    unfold walkWith
    rw [ih _ (by omega),step_above m above]

theorem walk_above (m : Nat → Mark) (above : d ≤ e) : walk net d m e = m e := by
  induction d generalizing m with
  | zero => rfl
  | succ d ih =>
    unfold walk
    rw [ih _ (by omega),step_above m above]

theorem walk_congr (same : ∀ e, e ≤ d → m e = m' e) (below : e ≤ d) :
    walk net d m e = walk net d m' e := by
  induction d generalizing m m' with
  | zero => exact same e below
  | succ d ih =>
    by_cases top : e = d + 1
    · rw [top,walk_above m le_rfl,walk_above m' le_rfl,same _ le_rfl]
    · unfold walk
      rw [same (d + 1) le_rfl]
      exact ih (fun e low => step_congr (same _ le_rfl) (same e (by omega))) (by omega)

theorem walkWith_congr {answer' : Nat → Bool} (same : ∀ e, e ≤ d → m e = m' e)
    (agree : ∀ e, e ≠ 0 → e ≤ d → net.skip e = false → answer e = answer' e) (below : e ≤ d) :
    walkWith net answer d m e = walkWith net answer' d m' e := by
  induction d generalizing m m' with
  | zero => exact same e below
  | succ d ih =>
    by_cases top : e = d + 1
    · rw [top,walkWith_above m le_rfl,walkWith_above m' le_rfl,same _ le_rfl]
    refine ih (fun e low => ?_) (fun e nonzero low => agree e nonzero (by omega)) (by omega)
    by_cases skipped : net.skip (d + 1) = true
    · unfold step
      rw [if_pos skipped,if_pos skipped,same e (by omega)]
    · rw [agree (d + 1) (Nat.succ_ne_zero d) le_rfl (eq_false_of_ne_true skipped)]
      exact step_congr (same _ le_rfl) (same e (by omega))

theorem walkWith_eq_walk
    (right : ∀ e, e ≠ 0 → e ≤ d → net.skip e = false →
      answer e = (walkWith net answer d m e).active) :
    walkWith net answer d m = walk net d m := by
  induction d generalizing m with
  | zero => rfl
  | succ d ih =>
    unfold walkWith walk
    have same : step net (answer (d + 1)) (d + 1) m = step net (m (d + 1)).active (d + 1) m := by
      by_cases skipped : net.skip (d + 1) = true
      · funext e
        unfold step
        rw [if_pos skipped,if_pos skipped]
      · rw [right (d + 1) (Nat.succ_ne_zero d) le_rfl (eq_false_of_ne_true skipped),
          walkWith_above m le_rfl]
    rw [← same]
    refine ih fun e nonzero below real => ?_
    have own := right e nonzero (by omega) real
    exact own

theorem walk_answers (d : Nat) (m : Nat → Mark) :
    walkWith net (fun e => (walk net d m e).active) d m = walk net d m := by
  induction d generalizing m with
  | zero => rfl
  | succ d ih =>
    unfold walkWith walk
    rw [walk_above _ (show d ≤ d + 1 by omega),step_above m le_rfl]
    exact ih _

theorem walk_blank {start top : Nat} (low : start ≤ top) (blank : ∀ e, start < e → m e = Mark.blank) :
    walk net top m = walk net start m := by
  induction top with
  | zero => rw [Nat.le_zero.mp low]
  | succ top ih =>
    by_cases here : start = top + 1
    · rw [here]
    have still : step net (m (top + 1)).active (top + 1) m = m := by
      funext e
      have dark := blank (top + 1) (by omega)
      rw [show (m (top + 1)).active = false by rw [dark]; rfl]
      exact step_blank dark
    conv_lhs => unfold walk
    rw [still]
    exact ih (by omega)

def Outside (net : Net) (e : Nat) : Prop :=
  ∀ d, net.skip d = false → e ∉ net.lineage d ∧ ∀ c ∈ net.notes d, c.2 ≠ e

theorem step_outside (m : Nat → Mark) (outside : Outside net e) : step net on d m e = m e := by
  by_cases skipped : net.skip d = true
  · exact if_pos skipped
  · obtain ⟨noLine,noNote⟩ := outside d (eq_false_of_ne_true skipped)
    have still : hand net d m e = m e := if_neg fun both => noLine both.2
    unfold step
    rw [still,sign_none.mpr noNote,if_neg skipped]
    split <;> rfl

theorem walkWith_outside (m : Nat → Mark) (outside : Outside net e) :
    walkWith net answer d m e = m e := by
  induction d generalizing m with
  | zero => rfl
  | succ d ih =>
    unfold walkWith
    rw [ih,step_outside m outside]

theorem walk_outside (m : Nat → Mark) (outside : Outside net e) : walk net d m e = m e := by
  rw [← walk_answers d m]
  exact walkWith_outside m outside

structure Agree (net other : Net) (d : Nat) : Prop where
  skip : net.skip d = other.skip d
  lineage : net.lineage d = other.lineage d
  sign : ∀ e, sign (net.notes d) e = sign (other.notes d) e

variable {other : Net}

theorem step_agree (m : Nat → Mark) (agree : Agree net other d) :
    step net on d m = step other on d m := by
  funext e
  unfold step hand
  rw [agree.skip,agree.lineage,agree.sign e]

structure Alike (net other : Net) (d : Nat) : Prop where
  skip : net.skip d = other.skip d
  agree : net.skip d = false → Agree net other d

theorem Agree.alike (agree : Agree net other d) : Alike net other d := ⟨agree.skip,fun _ => agree⟩

theorem step_alike (m : Nat → Mark) (alike : Alike net other d) :
    step net on d m = step other on d m := by
  by_cases skipped : net.skip d = true
  · funext e
    unfold step
    rw [if_pos skipped,if_pos (alike.skip ▸ skipped)]
  · exact step_agree m (alike.agree (eq_false_of_ne_true skipped))

theorem walk_alike (m : Nat → Mark) (same : ∀ e, e ≤ d → Alike net other e) :
    walk net d m = walk other d m := by
  induction d generalizing m with
  | zero => rfl
  | succ d ih =>
    unfold walk
    rw [step_alike m (same (d + 1) le_rfl)]
    exact ih _ fun e low => same e (by omega)

theorem walkWith_alike (m : Nat → Mark) (same : ∀ e, e ≤ d → Alike net other e) :
    walkWith net answer d m = walkWith other answer d m := by
  induction d generalizing m with
  | zero => rfl
  | succ d ih =>
    unfold walkWith
    rw [step_alike m (same (d + 1) le_rfl)]
    exact ih _ fun e low => same e (by omega)

theorem walk_agree (m : Nat → Mark) (same : ∀ e, e ≤ d → Agree net other e) :
    walk net d m = walk other d m :=
  walk_alike m fun e low => (same e low).alike

theorem walkWith_agree (m : Nat → Mark) (same : ∀ e, e ≤ d → Agree net other e) :
    walkWith net answer d m = walkWith other answer d m :=
  walkWith_alike m fun e low => (same e low).alike

theorem noted_par (m : Mark) (later : Option Bool) : (noted m later).par = m.par := by
  cases later with
  | none => rfl
  | some plus =>
    change (m.note plus).par = m.par
    unfold Mark.note
    split <;> rfl

theorem step_par (m : Nat → Mark) :
    (step net on d m e).par =
      ((m e).par || (!net.skip d && (m d).par && decide (e ∈ net.lineage d))) := by
  have handed : (hand net d m e).par = ((m e).par || ((m d).par && decide (e ∈ net.lineage d))) := by
    unfold hand
    split
    next both =>
      rw [both.1,decide_eq_true both.2,Bool.and_self,Bool.or_true]
      rfl
    rename_i both
    cases par : (m d).par with
    | false => simp
    | true =>
      have absent : e ∉ net.lineage d := fun inside => both ⟨par,inside⟩
      simp [absent]
  unfold step
  cases net.skip d with
  | true => simp
  | false =>
    rw [if_neg Bool.false_ne_true,Bool.not_false,Bool.true_and]
    split
    · rw [noted_par,handed]
    · exact handed

theorem walkWith_par_mono (par : (m e).par = true) : (walkWith net answer d m e).par = true := by
  induction d generalizing m with
  | zero => exact par
  | succ d ih =>
    refine ih ?_
    rw [step_par,par,Bool.true_or]

theorem walkWith_par_lineage {top : Nat} (nonzero : d ≠ 0) (low : d ≤ top) (real : net.skip d = false)
    (edge : e ∈ net.lineage d) (par : (walkWith net answer top m d).par = true) :
    (walkWith net answer top m e).par = true := by
  induction top generalizing m with
  | zero => omega
  | succ top ih =>
    by_cases here : d = top + 1
    · rw [here,walkWith_above m le_rfl] at par
      unfold walkWith
      refine walkWith_par_mono ?_
      rw [step_par,par,← here,real,decide_eq_true edge,Bool.not_false,Bool.and_self,Bool.and_self,
        Bool.or_true]
    · exact ih (by omega) par

private theorem noted_listed (m : Mark) (later : Option Bool) :
    (noted m later).listed = (m.listed || later.isSome) := by
  cases later with
  | none => rw [Option.isSome_none,Bool.or_false]; rfl
  | some plus =>
    rw [Option.isSome_some,Bool.or_true]
    exact note_listed m plus

theorem hand_listed (d : Nat) (m : Nat → Mark) (e : Nat) :
    (hand net d m e).inc = (m e).inc ∧ (hand net d m e).excl = (m e).excl ∧
      (hand net d m e).listed = (m e).listed := by
  unfold hand
  split
  · exact ⟨rfl,rfl,rfl⟩
  · exact ⟨rfl,rfl,rfl⟩

theorem step_listed (on : Bool) (d : Nat) (m : Nat → Mark) (e : Nat) :
    (step net on d m e).listed =
      ((m e).listed || (!net.skip d && on && (sign (net.notes d) e).isSome)) := by
  unfold step
  cases net.skip d with
  | true => simp
  | false =>
    rw [if_neg Bool.false_ne_true,Bool.not_false,Bool.true_and]
    cases on with
    | true => rw [if_pos rfl,noted_listed,(hand_listed d m e).2.2,Bool.true_and]
    | false => rw [if_neg Bool.false_ne_true,(hand_listed d m e).2.2,Bool.false_and,Bool.or_false]

theorem step_listed_inc (listed : (m e).listed = true) : (step net on d m e).inc = (m e).inc := by
  have kept : ∀ later, (noted (hand net d m e) later).inc = (m e).inc := by
    intro later
    cases later with
    | none => exact (hand_listed d m e).1
    | some plus =>
      have again : (hand net d m e).listed = true := (hand_listed d m e).2.2.trans listed
      change ((hand net d m e).note plus).inc = _
      unfold Mark.note
      rw [if_pos again]
      exact (hand_listed d m e).1
  unfold step
  split
  · rfl
  · split
    · exact kept _
    · exact (hand_listed d m e).1

theorem active_listed {m : Mark} (listed : m.listed = true) : m.active = m.inc := by
  obtain ⟨par,inc,excl⟩ := m
  revert listed
  cases par <;> cases inc <;> cases excl <;> decide

theorem active_unlisted {m : Mark} (unlisted : m.listed = false) : m.active = m.par := by
  obtain ⟨par,inc,excl⟩ := m
  revert unlisted
  cases par <;> cases inc <;> cases excl <;> decide

theorem walkWith_listed (listed : (m e).listed = true) :
    (walkWith net answer d m e).active = (m e).inc := by
  induction d generalizing m with
  | zero => exact active_listed listed
  | succ d ih =>
    unfold walkWith
    rw [ih (by rw [step_listed,listed,Bool.true_or]),step_listed_inc listed]

def Mark.force (m : Mark) : Option Bool → Mark
  | none => m
  | some plus => ⟨m.par,plus,!plus⟩

def forced (list : Nat → Option Bool) (m : Nat → Mark) (e : Nat) : Mark := (m e).force (list e)

theorem force_par (m : Mark) (first : Option Bool) : (m.force first).par = m.par :=
  by cases first <;> rfl

theorem force_inherit (m : Mark) (first : Option Bool) :
    (m.force first).inherit = m.inherit.force first := by
  cases first <;> rfl

theorem noted_unlisted {m : Mark} (unlisted : m.listed = false) (first : Option Bool) :
    noted m first = m.force first := by
  cases first with
  | none => rfl
  | some plus => exact if_neg (unlisted ▸ Bool.false_ne_true)

private theorem noted_force (m : Mark) (first later : Option Bool) :
    noted (m.force first) later = (noted m later).force first := by
  cases first with
  | none => rfl
  | some plus =>
    have listed : (m.force (some plus)).listed = true := by cases plus <;> rfl
    have kept : noted (m.force (some plus)) later = m.force (some plus) := by
      cases later with
      | none => rfl
      | some other => exact if_pos listed
    rw [kept]
    unfold Mark.force
    rw [noted_par]

private theorem hand_forced (list : Nat → Option Bool) (d : Nat) (m : Nat → Mark) (e : Nat) :
    hand net d (forced list m) e = (hand net d m e).force (list e) := by
  unfold hand forced
  rw [force_par,force_inherit]
  split <;> rfl

theorem step_forced (list : Nat → Option Bool) (on : Bool) (d : Nat) (m : Nat → Mark) :
    step net on d (forced list m) = forced list (step net on d m) := by
  funext e
  unfold step
  rw [hand_forced,noted_force]
  split
  · rfl
  · split <;> rfl

theorem walkWith_forced (answer : Nat → Bool) (list : Nat → Option Bool) (d : Nat) (m : Nat → Mark) :
    walkWith net answer d (forced list m) = forced list (walkWith net answer d m) := by
  induction d generalizing m with
  | zero => rfl
  | succ d ih =>
    unfold walkWith
    rw [step_forced,ih]

theorem forced_active (list : Nat → Option Bool) (m : Nat → Mark) (e : Nat) :
    (forced list m e).active = (list e).getD (m e).active := by
  unfold forced
  cases list e with
  | none => rfl
  | some plus => cases plus <;> simp [Mark.active,Mark.force]

theorem walk_forced {list : Nat → Option Bool}
    (corrects : ∀ e, e ≠ 0 → e ≤ d → net.skip e = false →
      (list e).getD (walkWith net answer d m e).active = answer e) :
    walk net d (forced list m) = forced list (walkWith net answer d m) := by
  rw [← walkWith_forced]
  refine (walkWith_eq_walk fun e nonzero below real => ?_).symm
  rw [walkWith_forced,forced_active]
  exact (corrects e nonzero below real).symm

structure Bare (net bare : Net) (r : Nat) : Prop where
  others : ∀ d, d ≠ r → Agree net bare d
  skip : net.skip r = bare.skip r
  lineage : net.lineage r = bare.lineage r
  notes : bare.notes r = []

theorem Bare.step {bare : Net} {r : Nat} (without : Bare net bare r)
    (unlisted : ∀ e, (m e).listed = false) (real : net.skip r = false) :
    Activation.step net true r m = forced (sign (net.notes r)) (Activation.step bare true r m) := by
  funext e
  have handed : hand net r m e = hand bare r m e := by
    unfold hand
    rw [without.lineage]
  have free : (hand bare r m e).listed = false := (hand_listed r m e).2.2.trans (unlisted e)
  unfold forced Activation.step
  rw [← without.skip,real,without.notes,handed,noted_unlisted free]
  rfl

theorem Bare.walk_active {bare : Net} (without : Bare net bare (d + 1))
    (unlisted : ∀ e, (m e).listed = false) (real : net.skip (d + 1) = false) {goal : Nat → Bool}
    (first : (m (d + 1)).active = true) (on : goal (d + 1) = true)
    (corrects : ∀ e, e ≠ 0 → e ≤ d → net.skip e = false →
      (sign (net.notes (d + 1)) e).getD (walkWith bare goal (d + 1) m e).active = goal e)
    (nonzero : e ≠ 0) (below : e ≤ d + 1) (realE : net.skip e = false) :
    (walk net (d + 1) m e).active = goal e := by
  by_cases top : e = d + 1
  · rw [top,walk_above _ le_rfl,first,on]
  have skips : ∀ e, bare.skip e = false → net.skip e = false := by
    intro e
    by_cases here : e = d + 1
    · rw [here,without.skip]
      exact id
    · rw [(without.others e here).skip]
      exact id
  unfold walk
  rw [first,without.step unlisted real,walk_agree _ fun f low => without.others f (by omega)]
  unfold walkWith at corrects
  rw [on] at corrects
  rw [walk_forced fun e nonzero low realE => corrects e nonzero low (skips e realE), forced_active]
  exact corrects e nonzero (by omega) realE

def Net.bare (net : Net) (r : Nat) : Net where
  skip := net.skip
  lineage := net.lineage
  notes := Function.update net.notes r []
  lineage_lt := net.lineage_lt
  notes_lt := fun d c inside => by
    by_cases here : d = r
    · rw [here,Function.update_self] at inside
      cases inside
    · rw [Function.update_of_ne here] at inside
      exact net.notes_lt d c inside

theorem bare_notes (net : Net) {r : Nat} (other : d ≠ r) : (net.bare r).notes d = net.notes d :=
  Function.update_of_ne other ..

theorem bare_bare (net : Net) (r : Nat) : Bare net (net.bare r) r :=
  ⟨fun _ other => ⟨rfl,rfl,fun e => congrArg (sign · e) (bare_notes net other).symm⟩, rfl,rfl,
    Function.update_self ..⟩

theorem Alike.bare (alike : Alike net other d) (r : Nat) : Alike (net.bare r) (other.bare r) d := by
  refine ⟨alike.skip,fun real => ?_⟩
  have agree := alike.agree real
  refine ⟨agree.skip,agree.lineage,fun e => ?_⟩
  by_cases here : d = r
  · rw [here,(bare_bare net r).notes,(bare_bare other r).notes]
  · rw [bare_notes net here,bare_notes other here,agree.sign e]

theorem Bare.active_eq {bare : Net} (without : Bare net bare (d + 1))
    (unlisted : ∀ e, (m e).listed = false) (real : net.skip (d + 1) = false)
    (first : (m (d + 1)).active = true) (e : Nat) :
    (walk net (d + 1) m e).active =
      (sign (net.notes (d + 1)) e).getD
      (walkWith bare (fun e => (walk net (d + 1) m e).active) (d + 1) m e).active := by
  have top : (walk net (d + 1) m (d + 1)).active = true := by rw [walk_above _ le_rfl,first]
  conv_lhs => rw [← walk_answers]
  unfold walkWith
  rw [top,without.step unlisted real,walkWith_forced,forced_active,
    walkWith_agree _ fun f low => without.others f (by omega)]

end BitKeeper.Activation
