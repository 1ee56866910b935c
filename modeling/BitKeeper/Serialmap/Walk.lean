import BitKeeper.Serialmap.Model
import BitKeeper.Symdiff.Expand

/-!
The loops of `serialmap` and `compressmap` are activation walks. `serialmap` writes its answer over
the marks of a delta, `compressmap` takes its answers from the map.
-/

namespace BitKeeper.Serialmap

open List Activation Symdiff Nat
open Function (update_of_ne update_self)

def pack (m : Mark) : Byte :=
  (if m.par then S_PAR else 0) ||| (if m.inc then S_INC else 0) ||| (if m.excl then S_EXCL else 0)

variable (m : Mark)

private theorem pack_zero : pack m = 0 ↔ m = Mark.blank := by
  obtain ⟨par,inc,excl⟩ := m
  cases par <;> cases inc <;> cases excl <;> decide

theorem isActive_pack : isActive (pack m) = m.active := by
  obtain ⟨par,inc,excl⟩ := m
  cases par <;> cases inc <;> cases excl <;> decide

theorem par_pack : pack m &&& S_PAR ≠ 0 ↔ m.par = true := by
  obtain ⟨par,inc,excl⟩ := m
  cases par <;> cases inc <;> cases excl <;> decide

theorem excl_pack : pack m &&& S_EXCL = 0 ↔ m.excl = false := by
  obtain ⟨par,inc,excl⟩ := m
  cases par <;> cases inc <;> cases excl <;> decide

theorem pack_inherit : pack m ||| S_PAR = pack m.inherit := by
  obtain ⟨par,inc,excl⟩ := m
  cases par <;> cases inc <;> cases excl <;> decide

private theorem pack_note (plus : Bool) :
    (if pack m &&& (S_INC ||| S_EXCL) ≠ 0 then pack m else
      pack m ||| (if plus then S_INC else S_EXCL)) = pack (m.note plus) := by
  obtain ⟨par,inc,excl⟩ := m
  cases par <;> cases inc <;> cases excl <;> cases plus <;> decide

variable {slist : Nat → Byte} {e : Nat}

theorem orAt_pack {m : Mark} (d : Nat) (own : slist e = pack m) :
    orAt slist d S_PAR e = pack (if e = d then m.inherit else m) := by
  unfold orAt
  split
  next here =>
    rw [← here,update_self,own,pack_inherit]
  next here =>
    rw [update_of_ne here,own]

variable {s : Sfile} {t : Nat} {m : Nat → Mark} (proper : Proper s.graph s.cludes)

theorem ancestry_pack (nonzero : t ≠ 0) (top : slist t = pack (m t))
    (own : slist e = pack (m e)) :
    ancestry s t slist e = pack (hand (s.net s.cludes proper) t m e) := by
  have line : (s.net s.cludes proper).lineage t =
    (if s.graph.parent t = 0 then [] else [s.graph.parent t]) ++
      (if s.bkmerge = true ∧ s.graph.merge t ≠ 0 then [s.graph.merge t] else []) := if_neg nonzero
  unfold ancestry hand
  rw [top,line]
  by_cases par : (m t).par = true
  · by_cases orphan : s.graph.parent t = 0
    · have alone : ¬ (s.bkmerge = true ∧ s.graph.merge t ≠ 0) := fun both =>
        proper.merge_parent t both.2 orphan
      rw [if_neg fun both => both.2 orphan, if_pos orphan,if_neg alone,own,
        if_neg fun both => not_mem_nil both.2]
    have first : orAt slist (s.graph.parent t) S_PAR e =
        pack (if e = s.graph.parent t then (m e).inherit else m e) :=
      orAt_pack _ own
    rw [if_pos ⟨(par_pack _).mpr par,orphan⟩,if_neg orphan]
    by_cases merges : s.bkmerge = true ∧ s.graph.merge t ≠ 0
    · rw [if_pos merges,if_pos merges,orAt_pack _ first]
      simp only [par,true_and,singleton_append,mem_cons,not_mem_nil,or_false]
      congr 1
      by_cases isParent : e = s.graph.parent t
      · rw [if_pos isParent,if_pos (Or.inl isParent)]
        split <;> rfl
      · rw [if_neg isParent]
        split
        next isMerge =>
          rw [if_pos (Or.inr isMerge)]
        next isMerge =>
          rw [if_neg fun either => either.elim isParent isMerge]
    · rw [if_neg merges,if_neg merges,first]
      simp only [par,true_and,append_nil,mem_singleton]
  · rw [if_neg fun both => par ((par_pack _).mp both.1), own,if_neg fun both => par both.1]

theorem notes_pack {m : Mark} {list : List Clude} (own : slist e = pack m) :
    list.foldl noteClude slist e = pack (noted m (sign (notesOf list) e)) := by
  induction list generalizing slist m with
  | nil => exact own
  | cons c rest ih =>
    have first : noteClude slist c e = pack (if c.serial = e then m.note c.plus else m) := by
      unfold noteClude orAt
      by_cases here : c.serial = e
      · rw [if_pos here,← pack_note,here,← own]
        split
        · rfl
        · rw [update_self]
      · rw [if_neg here,← own]
        split
        · rfl
        · rw [update_of_ne (Ne.symm here)]
    rw [foldl_cons,ih first,sign_notesOf_cons]
    by_cases here : c.serial = e
    · rw [if_pos here,if_pos here,noted_note]
      rfl
    · rw [if_neg here,if_neg here]

theorem mapStep_pack (nonzero : t ≠ 0) (packed : ∀ e, e ≤ t → slist e = pack (m e))
    (below : e < t) :
    mapStep s t slist e = pack (step (s.net s.cludes proper) (m t).active t m e) := by
  have handed : ∀ e, e ≤ t → ancestry s t slist e = pack (hand (s.net s.cludes proper) t m e) :=
    fun e low => ancestry_pack proper nonzero (packed t le_rfl) (packed e low)
  have top : hand (s.net s.cludes proper) t m t = m t :=
    if_neg fun both => absurd ((s.net s.cludes proper).lineage_lt t t both.2) (by omega)
  have skip : (s.net s.cludes proper).skip t = s.graph.tag t := rfl
  unfold mapStep step
  rw [skip]
  by_cases tag : s.graph.tag t = true
  · rw [if_pos tag,if_pos tag,packed e (by omega)]
  rw [if_neg tag,if_neg tag]
  rw [handed t le_rfl,isActive_pack,top]
  by_cases on : (m t).active = true
  · rw [if_pos on,if_pos on]
    exact notes_pack ((update_of_ne (by omega) _ _).trans (handed e (by omega)))
  · rw [if_neg on,if_neg on,update_of_ne (by omega),handed e (by omega)]

theorem foldl_noteClude_above {list : List Clude} (slist : Nat → Byte)
    (low : ∀ c ∈ list, c.serial < t) (above : t ≤ e) : list.foldl noteClude slist e = slist e := by
  induction list generalizing slist with
  | nil => rfl
  | cons c rest ih =>
    obtain ⟨first,later⟩ := forall_mem_cons.mp low
    rw [foldl_cons,ih _ later]
    unfold noteClude orAt
    split
    · rfl
    · rw [update_of_ne (by omega)]

theorem ancestry_above (slist : Nat → Byte) (nonzero : t ≠ 0) (above : t ≤ e) :
    ancestry s t slist e = slist e := by
  have low := s.graph.parent_lt t nonzero
  have lowMerge := s.graph.merge_lt t nonzero
  unfold ancestry orAt
  split
  · split
    · rw [update_of_ne (by omega),update_of_ne (by omega)]
    · exact update_of_ne (by omega) _ _
  · rfl

theorem mapStep_own (proper : Proper s.graph s.cludes) {m : Mark} (nonzero : t ≠ 0)
    (packed : slist t = pack m) :
    mapStep s t slist t = if s.graph.tag t = true then slist t else if m.active = true then
      1 else 0 := by
  have low : ∀ c ∈ s.cludes t, c.serial < t := fun c inside => (proper.below t c inside).2
  unfold mapStep
  split
  · rfl
  · dsimp only
    rw [ancestry_above slist nonzero (le_refl t),packed,isActive_pack]
    split
    · rw [foldl_noteClude_above _ low (le_refl t),update_self]
    · rw [update_self]

theorem mapStep_above (proper : Proper s.graph s.cludes) (slist : Nat → Byte) (nonzero : t ≠ 0)
    (above : t < e) :
    mapStep s t slist e = slist e := by
  have low : ∀ c ∈ s.cludes t, c.serial < t := fun c inside => (proper.below t c inside).2
  unfold mapStep
  split
  · rfl
  · dsimp only
    split
    · rw [foldl_noteClude_above _ low (by omega),update_of_ne (by omega),
        ancestry_above slist nonzero (by omega)]
    · rw [update_of_ne (by omega),ancestry_above slist nonzero (by omega)]

theorem step_oldest (on : Bool) (m : Nat → Mark) :
    step (s.net s.cludes proper) on 1 m = m := by
  funext e
  have noLine : ¬ ((m 1).par = true ∧ e ∈ (s.net s.cludes proper).lineage 1) := fun both => by
    have range : e ≠ 0 ∧ e < 1 := lineage_below s both.2
    omega
  have noNote : sign ((s.net s.cludes proper).notes 1) e = none :=
      sign_notesOf_none fun c inside _ => by
    have range := proper.below 1 c inside
    omega
  unfold step hand
  rw [noNote,if_neg noLine]
  split
  · rfl
  · split <;> rfl

def answered (g : Graph) (m : Nat → Mark) (e : Nat) : Byte :=
  if 1 < e ∧ g.tag e = false then (if (m e).active = true then 1 else 0) else pack (m e)

theorem mapFrom_above (proper : Proper s.graph s.cludes) (slist : Nat → Byte) (above : t < e) :
    mapFrom s t slist e = slist e := by
  induction t generalizing slist with
  | zero => rfl
  | succ t ih =>
    cases t with
    | zero => rfl
    | succ t =>
      unfold mapFrom
      rw [ih _ (by omega),mapStep_above proper slist (succ_ne_zero _) above]

theorem mapFrom_answered (packed : ∀ e, e ≤ t → slist e = pack (m e))
    (below : e ≤ t) : mapFrom s t slist e = answered s.graph (walk (s.net s.cludes proper) t m) e :=
  by
  induction t generalizing slist m with
  | zero =>
    unfold answered
    rw [if_neg fun both => by omega]
    exact packed e below
  | succ t ih =>
    cases t with
    | zero =>
      unfold answered walk
      rw [if_neg fun both => by omega, step_oldest]
      exact packed e below
    | succ t =>
      unfold mapFrom walk
      by_cases top : e = t + 2
      · unfold answered
        rw [top,mapFrom_above proper _ (lt_succ_self _),
          mapStep_own proper (succ_ne_zero _) (packed _ le_rfl),walk_above _ (le_succ _),
          step_above m le_rfl]
        by_cases tag : s.graph.tag (t + 2) = true
        · rw [if_pos tag,if_neg fun both => Bool.false_ne_true (both.2.symm.trans tag)]
          exact packed _ le_rfl
        · have real : 1 < t + 2 ∧ s.graph.tag (t + 2) = false := ⟨by omega,eq_false_of_ne_true tag⟩
          rw [if_neg tag,if_pos real]
      · refine ih (fun f low => ?_) (by omega)
        exact mapStep_pack proper (succ_ne_zero _) packed (by omega)

theorem le_newestOf (start : Nat) (list : List Nat) :
    start ≤ newestOf start list ∧ ∀ d ∈ list, d ≤ newestOf start list :=
  le_newest list start

theorem newestOf_le {start n : Nat} {list : List Nat} (low : start ≤ n)
    (within : ∀ d ∈ list, d ≤ n) : newestOf start list ≤ n :=
  newest_le within low

private theorem seeds_pack (list : List Nat) (e : Nat) :
    list.foldl (fun slist d => orAt slist d S_PAR) (fun _ => 0) e = pack (seedMarks list e) := by
  have more : ∀ (list : List Nat) (slist : Nat → Byte) (m : Mark), slist e = pack m →
      list.foldl (fun slist d => orAt slist d S_PAR) slist e =
        pack (if e ∈ list then m.inherit else m) := by
    intro list
    induction list with
    | nil => exact fun slist m own => own
    | cons d rest ih =>
      intro slist m own
      rw [foldl_cons,ih _ _ (orAt_pack d own)]
      by_cases here : e = d
      · rw [if_pos here,if_pos (mem_cons.mpr (Or.inl here))]
        split <;> rfl
      · rw [if_neg here]
        simp only [mem_cons,here,false_or]
  exact more list _ Mark.blank rfl

theorem mapFrom_whole {start top : Nat} (packed : ∀ e, slist e = pack (m e))
    (low : start ≤ top) (blank : ∀ e, start < e → m e = Mark.blank) (e : Nat) :
    mapFrom s start slist e = answered s.graph (walk (s.net s.cludes proper) top m) e := by
  rw [walk_blank low blank]
  by_cases below : e ≤ start
  · exact mapFrom_answered proper (fun f _ => packed f) below
  · have above : start < e := by omega
    unfold answered
    rw [mapFrom_above proper _ above,packed,walk_above _ (by omega),blank e above]
    split <;> rfl

theorem seedmap_answered {list : List Nat} {top : Nat}
    (within : ∀ d ∈ list, d ≤ top) (e : Nat) :
    seedmap s list e = answered s.graph (walk (s.net s.cludes proper) top (seedMarks list)) e :=
  mapFrom_whole proper (seeds_pack list) (newestOf_le (zero_le _) within)
    (fun e above => if_neg fun inside => absurd ((le_newestOf 0 list).2 e inside) (by omega)) e

theorem answered_ne_zero {g : Graph} :
    answered g m e ≠ 0 ↔ if 1 < e ∧ g.tag e = false then (m e).active = true else
      m e ≠ Mark.blank := by
  unfold answered
  split
  · split
    · exact ⟨fun _ => by assumption, fun _ => by decide⟩
    · exact ⟨(absurd rfl ·), fun on => absurd on (by assumption)⟩
  · exact not_congr (pack_zero (m e))

end BitKeeper.Serialmap
