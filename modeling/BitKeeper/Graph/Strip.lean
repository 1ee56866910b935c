import Mathlib.Tactic

/-!
`sccs_stripdel`: the d.file is deleted if the new top is in a cset. The serial of the new top is
found before the table is compressed and looked up afterwards; nothing clears the slots behind the
end of the new table.
-/

namespace BitKeeper.Strip

open List

/-- The flags of a delta and the serials that the checks follow. -/
structure Delta where
  tag : Bool
  set : Bool
  gone : Bool
  cset : Bool
  refs : List Nat
deriving DecidableEq

/-- The deltas from serial 1 on. What is stripped has `D_SET` and `D_GONE`; `rmdel` sets `D_SET`
alone, on what becomes a tag. `csetprune`, which clears `D_SET` first, is outside. -/
structure Table where
  deltas : List Delta
  paired : ∀ x ∈ deltas, x.tag = false → x.set = x.gone

/-- No delta that stays refers to one that is set. -/
def stripChecks (deltas : List Delta) : Bool :=
  deltas.all fun x => x.set || x.refs.all fun e => !(deltas[e - 1]?.any (·.set))

def Delta.regular (x : Delta) : Bool := !x.tag && !x.set

/-- The loop that looks for the new top; zero for none. -/
def newTop (deltas : List Delta) : Nat → Nat
  | 0 => 0
  | e + 1 => if deltas[e]?.any Delta.regular then e + 1 else newTop deltas e

def scompressGraph : Nat → Nat → Nat → List Delta → List Delta × Nat
  | 0, _, d, slots => (slots, d)
  | n + 1, e, d, slots =>
    match slots[e]? with
    | none => (slots, d)
    | some x =>
      if x.gone then scompressGraph n (e + 1) d slots else scompressGraph n (e + 1) (d + 1)
        (slots.set d x)

/-- The new table and whether the d.file is deleted; nothing if a check fails. -/
def sccs_stripdel (deltas : List Delta) : Option (List Delta × Bool) :=
  let e := newTop deltas deltas.length
  let (slots, d) := scompressGraph deltas.length 0 0 deltas
  if stripChecks deltas = true ∧ e ≠ 0 then some (slots.take d, slots[e - 1]?.any (·.cset)) else none

def newest (deltas : List Delta) : Option Delta := (deltas.filter fun x => !x.tag).getLast?

def kept (deltas : List Delta) : List Delta := deltas.filter fun x => !x.gone

def Delta.stays (x : Delta) : Bool := !x.tag && !x.gone

/-- A table, cut at the newest delta that stays and is no tag. -/
structure Cut (deltas below : List Delta) (top : Delta) (above : List Delta) : Prop where
  split : deltas = below ++ top :: above
  top : top.stays = true
  above : ∀ x ∈ above, x.stays = false

/-- Where `r + 1` deltas go out below the new top, the tag left as number `r` above it has the mark
of the top. -/
def Harmless (deltas : List Delta) : Prop :=
  ∀ below top above, Cut deltas below top above → ∀ r tag, below.countP (·.gone) = r + 1 →
    (kept above)[r]? = some tag → tag.cset = top.cset

theorem scompressGraph_spec (deltas : List Delta) (n e : Nat) (front : List Delta)
    (within : e + n = deltas.length) (low : front.length ≤ e) :
    scompressGraph n e front.length (front ++ deltas.drop front.length) =
      let all := front ++ kept (deltas.drop e)
      (all ++ deltas.drop all.length, all.length) := by
  induction n generalizing e front with
  | zero =>
    have ends : deltas.drop e = [] := drop_eq_nil_of_le (by omega)
    rw [scompressGraph,ends,kept,filter_nil,append_nil]
  | succ n ih =>
    have here : e < deltas.length := by omega
    have found : (front ++ deltas.drop front.length)[e]? = some deltas[e] := by
      rw [getElem?_append_right low,getElem?_drop,Nat.add_sub_cancel' low,getElem?_eq_getElem here]
    rw [scompressGraph,found,drop_eq_getElem_cons here,kept]
    dsimp only
    split
    next gone =>
      rw [ih (e + 1) front (by omega) (by omega),filter_cons_of_neg (by simp [gone])]
      rfl
    next stays =>
      have copied : (front ++ deltas.drop front.length).set front.length deltas[e] =
          (front ++ [deltas[e]]) ++ deltas.drop (front ++ [deltas[e]]).length := by
        have room : front.length < deltas.length := by omega
        rw [set_append_right _ _ le_rfl,Nat.sub_self,drop_eq_getElem_cons room,set_cons_zero,
          length_append,append_assoc]
        rfl
      have next := ih (e + 1) (front ++ [deltas[e]]) (by omega) (by simp; omega)
      rw [length_append,length_singleton] at next copied
      rw [copied,next,filter_cons_of_pos (by simp [stays]),append_assoc]
      rfl

theorem Table.regular (t : Table) : ∀ x ∈ t.deltas, x.regular = x.stays := by
  intro x inside
  have pair := t.paired x inside
  unfold Delta.regular Delta.stays
  cases tag : x.tag
  · rw [pair tag]
  · rfl

variable {deltas below above : List Delta} {top : Delta} (regular : ∀ x ∈ deltas, x.regular = x.stays)
include regular

theorem Cut.newTop (cut : Cut deltas below top above) :
    newTop deltas deltas.length = below.length + 1 := by
  have size : deltas.length = below.length + 1 + above.length := by
    rw [cut.split,length_append,length_cons]
    omega
  -- the search passes by what stands above the top
  have passes : ∀ m ≤ above.length, Strip.newTop deltas (below.length + 1 + m) = below.length + 1 :=
      by
    intro m bound
    induction m with
    | zero =>
      have here : deltas[below.length]? = some top := by
        rw [cut.split]
        simp
      rw [Nat.add_zero,Strip.newTop,here,if_pos]
      exact (regular top (mem_of_getElem? here)).trans cut.top
    | succ m ih =>
      have here : deltas[below.length + 1 + m]? = some above[m] := by
        rw [cut.split,getElem?_append_right (by omega),
          show below.length + 1 + m - below.length = m + 1 by omega,getElem?_cons_succ,
          getElem?_eq_getElem]
      have other : above[m].regular = false :=
        (regular _ (mem_of_getElem? here)).trans (cut.above _ (getElem_mem bound))
      rw [← Nat.add_assoc,Strip.newTop,here,if_neg (by simp [other])]
      exact ih (by omega)
  rw [size]
  exact passes above.length le_rfl

private theorem exists_cut {n : Nat} (some : Strip.newTop deltas n ≠ 0) :
    ∃ below top above, Cut deltas below top above := by
  cases found : deltas.reverse.find? Delta.stays with
  | some top =>
    obtain ⟨stays,newer,older,split,tags⟩ := find?_eq_some_iff_append.mp found
    refine ⟨older.reverse,top,newer.reverse,?_,stays,?_⟩
    · rw [← reverse_inj,split]
      simp
    · intro x inside
      simpa using tags x (mem_reverse.mp inside)
  | none =>
    exfalso
    induction n with
    | zero => exact some rfl
    | succ n ih =>
      rw [Strip.newTop] at some
      split at some
      next here =>
        cases is : deltas[n]? with
        | none => simp [is] at here
        | some x =>
          have inside := mem_of_getElem? is
          rw [is,Option.any_some,regular x inside] at here
          exact find?_eq_none.mp found x (mem_reverse.mpr inside) here
      next => exact ih some

omit regular

theorem Cut.slot (cut : Cut deltas below top above) :
    (kept deltas ++ deltas.drop (kept deltas).length)[below.length]? =
      some (if below.countP (·.gone) = 0 then top else (kept above)[below.countP (·.gone) - 1]?.getD
        top) := by
  have sizes : (kept below).length + below.countP (·.gone) = below.length := by
    have both := length_eq_countP_add_countP (·.gone) (l := below)
    simp only [kept,← countP_eq_length_filter] at both ⊢
    simp_all
    omega
  have stays : top.gone = false := by simpa [Delta.stays] using (Bool.and_eq_true_iff.mp cut.top).2
  have parts : kept deltas = kept below ++ top :: kept above := by
    rw [cut.split,kept,filter_append,filter_cons_of_pos (by simp [stays])]
    rfl
  have own : deltas[below.length]? = some top := by
    rw [cut.split]
    simp
  by_cases inside : below.length < (kept deltas).length
  · rw [getElem?_append_left inside,parts,getElem?_append_right (by omega)]
    rw [parts,length_append,length_cons] at inside
    cases removed : below.countP (·.gone) with
    | zero =>
      rw [if_pos rfl,show below.length - (kept below).length = 0 by omega]
      rfl
    | succ r =>
      have known : r < (kept above).length := by omega
      rw [if_neg (Nat.succ_ne_zero r),show below.length - (kept below).length = r + 1 by omega,
        getElem?_cons_succ,Nat.add_sub_cancel,getElem?_eq_getElem known]
      rfl
  · rw [getElem?_append_right (by omega),getElem?_drop,Nat.add_sub_cancel' (by omega),own]
    rw [parts,length_append,length_cons] at inside
    rw [if_neg (by omega),getElem?_eq_none (by omega)]
    rfl

theorem Cut.newest (cut : Cut deltas below top above) : newest (kept deltas) = some top := by
  have none : above.filter (fun x => x.stays) = [] := by
    rw [filter_eq_nil_iff]
    exact fun x inside => by simp [cut.above x inside]
  unfold Strip.newest kept
  rw [filter_filter]
  change (deltas.filter fun x => x.stays).getLast? = _
  rw [cut.split,filter_append,filter_cons_of_pos cut.top,none,getLast?_append]
  rfl

/-- The d.file is deleted exactly when the newest delta left that is no tag is in a cset, iff no
other mark gets into its slot. -/
theorem sccs_stripdel_cset_iff (t : Table) {after : List Delta} {deleted : Bool}
    (done : sccs_stripdel t.deltas = some (after, deleted)) :
    (deleted = true ↔ ∃ x, newest after = some x ∧ x.cset = true) ↔ Harmless t.deltas := by
  have compressed := scompressGraph_spec t.deltas t.deltas.length 0 [] (Nat.zero_add _) le_rfl
  simp only [length_nil,drop_zero,nil_append] at compressed
  unfold sccs_stripdel at done
  rw [compressed] at done
  obtain ⟨⟨_,top⟩,made⟩ := Option.ite_none_right_eq_some.mp done
  rw [take_left] at made
  obtain ⟨rfl,rfl⟩ := Prod.mk.inj (Option.some.inj made)
  have decides : ∀ below top above, Cut t.deltas below top above →
      ((((kept t.deltas ++ t.deltas.drop (kept t.deltas).length)[newTop t.deltas
        t.deltas.length - 1]?).any (·.cset) = true ↔
          ∃ x, newest (kept t.deltas) = some x ∧ x.cset = true) ↔
        ∀ r tag, below.countP (·.gone) = r + 1 → (kept above)[r]? = some tag →
          tag.cset = top.cset) := by
    intro below top above cut
    rw [cut.newTop t.regular,Nat.add_sub_cancel,cut.slot,cut.newest]
    have agree : ∀ slot : Delta,
      ((some slot).any (·.cset) = true ↔ ∃ x, some top = some x ∧ x.cset = true) ↔
        slot.cset = top.cset := by
      intro slot
      rw [Bool.eq_iff_iff]
      simp
    rw [agree]
    constructor
    · intro same r tag removed moved
      rwa [removed,if_neg (Nat.succ_ne_zero r),Nat.add_sub_cancel,moved] at same
    intro harmless
    cases removed : below.countP (·.gone) with
    | zero => rfl
    | succ r =>
      cases moved : (kept above)[r]? with
      | none => simp [moved]
      | some tag => simpa [moved] using harmless r tag removed moved
  constructor
  · intro right below top above cut
    exact (decides below top above cut).mp right
  · intro harmless
    obtain ⟨below,top,above,cut⟩ := exists_cut t.regular top
    exact (decides below top above cut).mpr (harmless below top above cut)

/-- A committed change, a stripped branch tip, the committed top and a tag. -/
def tagged : Table where
  deltas := [⟨false,false,false,true,[]⟩,⟨false,true,true,false,[1]⟩,⟨false,false,false,true,[1]⟩,
    ⟨true,false,false,false,[3]⟩]
  paired := by decide

theorem sccs_stripdel_cset_iff_tagged :
    sccs_stripdel tagged.deltas = some (kept tagged.deltas, false) ∧
    ((false = true ↔ ∃ x, newest (kept tagged.deltas) = some x ∧ x.cset = true) ↔
      Harmless tagged.deltas) := by
  have done : sccs_stripdel tagged.deltas = some (kept tagged.deltas, false) := by decide
  exact ⟨done,sccs_stripdel_cset_iff tagged done⟩

/-- The d.file stays although the top is in a cset. -/
theorem sccs_stripdel_keeps_dfile : ∃ after, sccs_stripdel tagged.deltas = some (after, false) ∧
    (newest after).any (·.cset) = true := ⟨kept tagged.deltas,by decide,by decide⟩

end BitKeeper.Strip
