import BitKeeper.HashMerge.Merge

/-!
The laws of the hash merge. A key that both sides changed has the lines that a three-way merge of
sets wants, without their carriage returns.
-/

namespace BitKeeper.HashMerge

open List Assoc Bytes Option

theorem cstring_clean (data : Bytes) : 0 ∉ cstring data := by
  intro inside
  have nonzero := mem_takeWhile_imp inside
  exact of_decide_eq_true nonzero rfl

variable (q : Sorter)

private theorem merge_strings_comm (l : Bytes) (g : Option Bytes) (r : Bytes) :
    merge_strings q l g r = merge_strings q r g l :=
  do_setmerge_comm q (cstring_clean l) (cstring_clean r)

theorem mergeKey_comm (l g r : Option Bytes) : mergeKey q l g r = mergeKey q r g l := by
  cases l with
  | none =>
    cases r with
    | none => rfl
    | some r => rfl
  | some l =>
    cases r with
    | none => rfl
    | some r =>
      rw [mergeKey_both,mergeKey_both]
      split
      next same =>
        rw [if_pos same.symm,same]
      next same =>
        rw [if_neg (Ne.symm same)]
        by_cases left : g = some l
        · have other : g ≠ some r := fun right => same (some.inj (left.symm.trans right))
          rw [if_pos left,if_neg other,if_pos left]
        · rw [if_neg left,if_neg left,merge_strings_comm]

theorem mergeKey_unchanged (g r : Option Bytes) : mergeKey q g g r = r := by
  cases g with
  | none =>
    cases r with
    | none => rfl
    | some r =>
      change (if none = some r then none else some r) = some r
      rw [if_neg (some_ne_none r).symm]
  | some g =>
    cases r with
    | none => exact if_pos rfl
    | some r =>
      rw [mergeKey_both]
      split
      next same =>
        rw [same]
      · rw [if_pos rfl]

private theorem mergeKey_equal (x g : Option Bytes) : mergeKey q x g x = x := by
  cases x with
  | none => rfl
  | some x => exact if_pos rfl

theorem mergeKey_changed {l g : Bytes} (changed : l ≠ g) :
    mergeKey q (some l) (some g) none = some l :=
  if_neg fun same => changed (some.inj same).symm

def stored (lines : List Bytes) : Bytes := printLines lines ++ [0]

structure Plain (line : Bytes) : Prop where
  plain : newline ∉ line
  clean : 0 ∉ line

def HasLines (g : Option Bytes) (lines : List Bytes) : Prop :=
  (g = none ∧ lines = []) ∨ g = some (stored lines)

variable {lines : List Bytes}

theorem printLines_clean (plain : ∀ line ∈ lines, Plain line) : 0 ∉ printLines lines := by
  intro inside
  obtain ⟨text,listed,byte⟩ := mem_flatten.mp inside
  obtain ⟨line,known,rfl⟩ := mem_map.mp listed
  rcases mem_append.mp byte with early | last
  · exact (plain line known).clean early
  · exact absurd (mem_singleton.mp last) (by decide)

theorem cstring_stored (plain : ∀ line ∈ lines, Plain line) :
    cstring (stored lines) = printLines lines := by
  unfold cstring stored
  have whole : ∀ c ∈ printLines lines, decide (c ≠ 0) = true := fun c inside =>
    decide_eq_true fun zero => printLines_clean plain (zero ▸ inside)
  rw [takeWhile_append_of_pos whole]
  exact append_nil _

private theorem stored_filled (lines : List Bytes) : 0 < (stored lines).length := by
  unfold stored
  rw [length_append,length_singleton]
  omega

def Short (lines : List Bytes) : Prop := ∀ line ∈ lines, line.length < MAXLINE - 1

theorem merge_strings_lines {g : Option Bytes} {linesL linesG linesR : List Bytes}
    (plainL : ∀ line ∈ linesL, Plain line) (plainG : ∀ line ∈ linesG, Plain line)
    (plainR : ∀ line ∈ linesR, Plain line) (shortL : Short linesL) (shortG : Short linesG)
    (shortR : Short linesR) (ancestor : HasLines g linesG) :
    ∃ lines, merge_strings q (stored linesL) g (stored linesR) = printLines lines ∧
      lines.Pairwise (· < ·) ∧
      ∀ x, x ∈ lines ↔ Wanted (x ∈ linesL.map bare) (x ∈ linesG.map bare) (x ∈ linesR.map bare) := by
  have read : ∀ {lines : List Bytes}, (∀ line ∈ lines, Plain line) → Short lines →
      fileLines (printLines lines) = lines.map bare := fun plain short =>
    fileLines_print (fun line inside => (plain line inside).plain) short
  have middle : (g.map cstring).getD [] = printLines linesG := by
    rcases ancestor with ⟨missing,empty⟩ | present
    · rw [missing,empty]
      rfl
    · rw [present,map_some,getD_some,cstring_stored plainG]
  unfold merge_strings
  rw [cstring_stored plainL,cstring_stored plainR,middle,← read plainL shortL,← read plainG shortG,
    ← read plainR shortR]
  exact do_setmerge_spec q (printLines_clean plainL) (printLines_clean plainR)

def Hash.Listed (h : Hash) : Prop :=
  ∀ key data, h.fetchStr key = some data → ∃ lines, data = stored lines ∧ ∀ line ∈ lines, Plain line

theorem Hash.Listed.filled {h : Hash} (listed : h.Listed) : h.Filled := by
  intro key data found
  obtain ⟨lines,rfl,_⟩ := listed key data found
  exact stored_filled lines

def Builds (q : Sorter) (l g r : Hash) (value : Bytes → Option Bytes) : Prop :=
  ∃ m, do_hashmerge q l g r = some m ∧ ∀ key, m.fetchStr key = value key

structure Conflict (l g r : Hash) (key : Bytes) (linesL linesG linesR : List Bytes) : Prop where
  left : l.fetchStr key = some (stored linesL)
  ancestor : HasLines (g.fetchStr key) linesG
  right : r.fetchStr key = some (stored linesR)
  differ : stored linesL ≠ stored linesR
  changedL : g.fetchStr key ≠ some (stored linesL)
  changedR : g.fetchStr key ≠ some (stored linesR)
  plainL : ∀ line ∈ linesL, Plain line
  plainG : ∀ line ∈ linesG, Plain line
  plainR : ∀ line ∈ linesR, Plain line

theorem do_hashmerge_laws (q : Sorter) (l g r : Hash) (listedL : l.Listed) (listedG : g.Listed)
    (listedR : r.Listed) : ∃ value, Builds q l g r value ∧ Builds q r g l value ∧
    Builds q l g g l.fetchStr ∧ Builds q g g r r.fetchStr ∧ Builds q l g l l.fetchStr ∧
    (∀ key, r.fetchStr key = g.fetchStr key → value key = l.fetchStr key) ∧
    (∀ key, l.fetchStr key = g.fetchStr key → value key = r.fetchStr key) ∧
    (∀ key old new, g.fetchStr key = some old → l.fetchStr key = some new → new ≠ old →
      r.fetchStr key = none → value key = some new) ∧
    (∀ key old new, g.fetchStr key = some old → r.fetchStr key = some new → new ≠ old →
      l.fetchStr key = none → value key = some new) ∧
    (∀ key linesL linesG linesR, Conflict l g r key linesL linesG linesR →
      Short linesL → Short linesG → Short linesR →
      ∃ lines, value key = some (stored lines) ∧ lines.Pairwise (· < ·) ∧
        ∀ x, x ∈ lines ↔ Wanted (x ∈ linesL.map bare) (x ∈ linesG.map bare)
    (x ∈ linesR.map bare)) := by
  refine ⟨fun key => mergeKey q (l.fetchStr key) (g.fetchStr key) (r.fetchStr key), ?_⟩
  refine ⟨?_,?_,?_,?_,?_,?_,?_,?_,?_,?_⟩
  · exact do_hashmerge_fetchStr q l g r listedL.filled listedR.filled
  · obtain ⟨m,run,values⟩ := do_hashmerge_fetchStr q r g l listedR.filled listedL.filled
    exact ⟨m,run,fun key => (values key).trans (mergeKey_comm q _ _ _)⟩
  · obtain ⟨m,run,values⟩ := do_hashmerge_fetchStr q l g g listedL.filled listedG.filled
    refine ⟨m,run,fun key => ?_⟩
    rw [values,mergeKey_comm,mergeKey_unchanged]
  · obtain ⟨m,run,values⟩ := do_hashmerge_fetchStr q g g r listedG.filled listedR.filled
    refine ⟨m,run,fun key => ?_⟩
    rw [values,mergeKey_unchanged]
  · obtain ⟨m,run,values⟩ := do_hashmerge_fetchStr q l g l listedL.filled listedL.filled
    refine ⟨m,run,fun key => ?_⟩
    rw [values,mergeKey_equal]
  · intro key same
    dsimp only
    rw [same,mergeKey_comm,mergeKey_unchanged]
  · intro key same
    dsimp only
    rw [same,mergeKey_unchanged]
  · intro key old new before after changed removed
    dsimp only
    rw [before,after,removed,mergeKey_changed q changed]
  · intro key old new before after changed removed
    dsimp only
    rw [before,after,removed,mergeKey_comm,mergeKey_changed q changed]
  · intro key linesL linesG linesR conflict shortL shortG shortR
    obtain ⟨lines,printed,sorted,mem⟩ := merge_strings_lines q conflict.plainL conflict.plainG
      conflict.plainR
      shortL shortG shortR conflict.ancestor
    refine ⟨lines,?_,sorted,mem⟩
    dsimp only
    rw [conflict.left,conflict.right,mergeKey_both,if_neg conflict.differ,if_neg conflict.changedL,
      if_neg conflict.changedR,printed]
    rfl

def oneKey (key : Bytes) (lines : List Bytes) : Hash := ⟨[(key, stored lines)],nodup_singleton key⟩

theorem plain_of_fine (fine : ∀ line ∈ lines, newline ∉ line ∧ 0 ∉ line) :
    ∀ line ∈ lines, Plain line :=
  fun line inside => ⟨(fine line inside).1,(fine line inside).2⟩

theorem oneKey_listed {key : Bytes} (fine : ∀ line ∈ lines, newline ∉ line ∧ 0 ∉ line) :
    (oneKey key lines).Listed := by
  intro k data found
  have known : (if k = key then some (stored lines) else none) = some data :=
    (lookup_step key _ [] k).symm.trans found
  split at known
  · exact ⟨lines,(some.inj known).symm,plain_of_fine fine⟩
  · cases known

theorem do_hashmerge_laws_letters :
    (oneKey [107] [[97]]).Listed ∧ (oneKey [107] [[98]]).Listed ∧ (oneKey [107] [[99]]).Listed ∧
    ∃ value, Builds insertion (oneKey [107] [[97]]) (oneKey [107] [[98]])
    (oneKey [107] [[99]]) value ∧
      ∃ lines, value [107] = some (stored lines) ∧ [97] ∈ lines ∧ [98] ∉ lines ∧ [99] ∈ lines := by
  have listedL : (oneKey [107] [[97]]).Listed := oneKey_listed (by decide)
  have listedG : (oneKey [107] [[98]]).Listed := oneKey_listed (by decide)
  have listedR : (oneKey [107] [[99]]).Listed := oneKey_listed (by decide)
  have conflict : Conflict (oneKey [107] [[97]]) (oneKey [107] [[98]]) (oneKey [107] [[99]]) [107]
      [[97]] [[98]] [[99]] :=
    ⟨rfl,.inr rfl,rfl,by decide,by decide,by decide,plain_of_fine (by decide),
      plain_of_fine (by decide),plain_of_fine (by decide)⟩
  have short : ∀ c : UInt8, Short [[c]] := by
    intro c line inside
    rw [mem_singleton.mp inside]
    change 1 < MAXLINE - 1
    decide
  obtain ⟨value,builds,_,_,_,_,_,_,_,_,lines⟩ :=
    do_hashmerge_laws insertion _ _ _ listedL listedG listedR
  obtain ⟨merged,holds,_,mem⟩ := lines _ _ _ _ conflict (short 97) (short 98) (short 99)
  refine ⟨listedL,listedG,listedR,value,builds,merged,holds,?_,?_,?_⟩
  · exact (mem _).mpr (.inr ⟨.inl (by decide),by decide⟩)
  · intro inside
    rcases (mem _).mp inside with both | one
    · exact absurd both.1 (by decide)
    · exact one.2 (by decide)
  · exact (mem _).mpr (.inr ⟨.inr (by decide),by decide⟩)

/-- A line that ends in a carriage return is in both sides, and has lost it in the result. -/
theorem do_hashmerge_drops_return :
    do_hashmerge insertion (oneKey [107] [[97,13]]) Hash.empty (oneKey [107] [[97,13],[98]]) =
      some (oneKey [107] [[97],[98]]) ∧
    Conflict (oneKey [107] [[97,13]]) Hash.empty (oneKey [107] [[97,13],[98]]) [107] [[97,13]] []
      [[97,13],[98]] ∧ [97,13] ∉ [[97],[98]] := by
  refine ⟨by decide +kernel,?_,by decide⟩
  exact ⟨rfl,.inl ⟨rfl,rfl⟩,rfl,by decide,by decide,by decide,plain_of_fine (by decide),
    plain_of_fine (by decide),plain_of_fine (by decide)⟩

end BitKeeper.HashMerge
