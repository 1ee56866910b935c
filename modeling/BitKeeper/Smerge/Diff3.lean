import BitKeeper.Smerge.Laws
import BitKeeper.Libdiff.Diff

/-!
`do_diff_merge`: each region is stretched until the walks over both diffs end at one line of the GCA.
A walk without commands left stands at `INT_MAX`.
-/

namespace BitKeeper.Smerge

open List
open Libdiff (Hunk)

structure Walk where
  cmds : List Hunk
  offset : Int
  start : Nat
  end_ : Nat
  lines : Int

def diffwalk_new (cmds : List Hunk) : Walk :=
  { cmds := cmds, offset := 0, start := 0, end_ := 0, lines := 0 }

def diffwalk_nextdiff (dw : Walk) : Option Nat := dw.cmds.head?.map Hunk.lstart

def diffwalk_extend : List Hunk → Walk → Nat → Walk
  | [], dw, gcalineno =>
    { dw with cmds := [], end_ := if gcalineno < dw.end_ then dw.end_ else max dw.end_ gcalineno }
  | cmd :: rest, dw, gcalineno =>
    if gcalineno < dw.end_ then { dw with cmds := cmd :: rest }
    else if cmd.lstart ≤ gcalineno then
      let extra : Int := (cmd.rlen : Int) - cmd.llen
      diffwalk_extend rest
        { dw with lines := dw.lines + extra, offset := dw.offset + extra, end_ := cmd.lend } gcalineno
    else { dw with cmds := cmd :: rest, end_ := max dw.end_ (min gcalineno cmd.lstart) }

def diffwalk_start (dw : Walk) (gcalineno : Nat) : Except Stop Walk :=
  let dw' := { dw with start := gcalineno, end_ := gcalineno, lines := 0 }
  match dw.cmds with
  | [] => .ok dw'
  | cmd :: rest =>
    if gcalineno ≤ cmd.lstart then
      .ok (if gcalineno = cmd.lstart then diffwalk_extend (cmd :: rest) dw' cmd.lend else dw')
    else .error .assertion

def diffwalk_range (dw : Walk) : Nat × Nat :=
  ((dw.start + dw.offset - 1 - dw.lines).toNat, (dw.end_ + dw.offset - 1).toNat)

def agree : Nat → Walk → Walk → Except Stop (Walk × Walk)
  | 0, _, _ => .error .fuel
  | fuel + 1, ldiff, rdiff =>
    if ldiff.end_ < rdiff.end_ then agree fuel (diffwalk_extend ldiff.cmds ldiff rdiff.end_) rdiff
    else if rdiff.end_ < ldiff.end_ then
      agree fuel ldiff (diffwalk_extend rdiff.cmds rdiff ldiff.end_)
    else .ok (ldiff, rdiff)

section Merge
variable {T : Type} [DecidableEq T] (f : Files T) (diff_items : List T → List T → List Hunk)
  (enable : MergeFcn → Bool)

def diffRegion (start : Nat) (ldiff rdiff : Walk) : Region T where
  start := fun side =>
    match side with
    | .left => (diffwalk_range ldiff).1
    | .right => (diffwalk_range rdiff).1
    | .gca => start - 1
    | .gcar => start - 1
  end_ := fun side =>
    match side with
    | .left => (diffwalk_range ldiff).2
    | .right => (diffwalk_range rdiff).2
    | .gca => ldiff.end_ - 1
    | .gcar => ldiff.end_ - 1
  start_seq := if start - 1 > 0 then f.seqAt .gca (start - 2) else 0
  end_seq := f.seqAt .gca (ldiff.end_ - 1)
  merged := none
  split := false
  algos := []

def resolveAll : Nat → Region T → List (Region T) → Except Stop (List (Region T))
  | 0, _, _ => .error .fuel
  | fuel + 1, c, next =>
    (resolve_conflict f diff_items enable c next).bind (fun r =>
      match r.2 with
      | [] => .ok [r.1]
      | c' :: next' => (resolveAll fuel c' next').map (r.1 :: ·))

inductive DiffPrinted (T : Type) where
  | gca (line : Line T)
  | region (c : Region T)

def gcaLines (gcaline start : Nat) : List (DiffPrinted T) :=
  (((f.body .gca).drop (gcaline - 1)).take (start - gcaline)).map .gca

def nextStart : Option Nat → Option Nat → Option Nat
  | some l, some r => some (min l r)
  | some l, none => some l
  | none, r => r

def diffLoop : Nat → Nat → Walk → Walk → Except Stop (List (DiffPrinted T))
  | 0, _, _, _ => .error .fuel
  | fuel + 1, gcaline, ldiff, rdiff =>
    match nextStart (diffwalk_nextdiff ldiff) (diffwalk_nextdiff rdiff) with
    | none => .ok (gcaLines f gcaline (f.n .gca + 1))
    | some start =>
      if f.n .gca + 1 < start then .ok (gcaLines f gcaline (f.n .gca + 1))
      else
        (diffwalk_start ldiff start).bind (fun ldiff =>
          (diffwalk_start rdiff start).bind (fun rdiff =>
            (agree (ldiff.cmds.length + rdiff.cmds.length + 2) ldiff rdiff).bind (fun walks =>
              (resolveAll f diff_items enable (f.size + 1) (diffRegion f start walks.1 walks.2)
                []).bind
                (fun regions =>
                  (diffLoop fuel walks.1.end_ walks.1 walks.2).map (fun later =>
                    gcaLines f gcaline start ++ regions.map .region ++ later)))))

def do_diff_merge (ldiff rdiff : List Hunk) : Except Stop (List (DiffPrinted T)) :=
  diffLoop f diff_items enable (ldiff.length + rdiff.length + 1) 1 (diffwalk_new ldiff)
    (diffwalk_new rdiff)

end Merge

/-! ### The walk over one diff -/

private theorem script_advance {α : Type} {x y k : Nat} {l r : List α} {cmds : List Hunk}
    (script : Libdiff.Script Eq x y l r cmds) (before : ∀ h ∈ cmds.head?, x + k ≤ h.lstart)
    (short : k ≤ l.length) :
    k ≤ r.length ∧ l.take k = r.take k ∧ Libdiff.Script Eq (x + k) (y + k) (l.drop k)
    (r.drop k) cmds := by
  cases script with
  | same common =>
    rw [forall₂_eq_eq_eq] at common
    subst common
    exact ⟨short,rfl,.same (forall₂_eq_eq_eq ▸ rfl)⟩
  | @hunk _ _ cl cr dl dr l r rest common changed script apart =>
    rw [forall₂_eq_eq_eq] at common
    subst common
    have inside : x + k ≤ x + cl.length := before _ rfl
    have le : k ≤ cl.length := by omega
    have left : x + k + (cl.drop k).length = x + cl.length := by
      rw [length_drop]
      omega
    have right : y + k + (cl.drop k).length = y + cl.length := by
      omega
    have moved := @Libdiff.Script.hunk _ Eq (x + k) (y + k) (cl.drop k) (cl.drop k) dl dr l r rest
      (forall₂_eq_eq_eq ▸ rfl) changed (by rwa [left,right]) (by rwa [left,right])
    rw [left,right] at moved
    refine ⟨?_,?_,?_⟩
    · rw [length_append]
      omega
    · rw [take_append_of_le_length le,take_append_of_le_length le]
    · rwa [drop_append_of_le_length le,drop_append_of_le_length le]

theorem script_done {α : Type} {x y : Nat} {l r : List α} (script : Libdiff.Script Eq x y l r []) :
    l = r := by
  cases script with
  | same common => exact forall₂_eq_eq_eq ▸ common

/-- The line of the side that stands at line `g` of the GCA. -/
def shifted (offset : Int) (g : Nat) : Nat := (g + offset).toNat

section Walks
variable {T : Type} {f : Files T} {side : Side} {cmds : List Hunk} {offset : Int}

/-- The commands lead from line `g` of the GCA to the ends of both files. -/
structure At (f : Files T) (side : Side) (cmds : List Hunk) (offset : Int) (g : Nat) : Prop where
  first : 1 ≤ g ∧ (1 : Int) ≤ g + offset
  inside : g ≤ f.n .gca + 1 ∧ shifted offset g ≤ f.n side + 1
  script : Libdiff.Script Eq g (shifted offset g) ((f.body .gca).drop (g - 1))
    ((f.body side).drop (shifted offset g - 1)) cmds

theorem At.low {g : Nat} (here : At f side cmds offset g) : 1 ≤ shifted offset g := by
  have first := here.first
  unfold shifted
  omega

theorem At.advance {g g' : Nat} (here : At f side cmds offset g) (le : g ≤ g')
    (inside : g' ≤ f.n .gca + 1) (before : ∀ h ∈ cmds.head?, g' ≤ h.lstart) :
    At f side cmds offset g' ∧ ((f.body side).drop (shifted offset g - 1)).take (g' - g) =
      ((f.body .gca).drop (g - 1)).take (g' - g) := by
  have first := here.first
  have bounds := here.inside
  have low := here.low
  have moved : shifted offset g' = shifted offset g + (g' - g) := by
    unfold shifted
    omega
  obtain ⟨room,same,script⟩ := script_advance (k := g' - g) here.script
    (fun h head => by have after := before h head; omega)
      (by rw [length_drop]; unfold Files.n at inside; omega)
  rw [drop_drop,drop_drop,← moved,show g - 1 + (g' - g) = g' - 1 by omega,
    show shifted offset g - 1 + (g' - g) = shifted offset g' - 1 by omega,
    show g + (g' - g) = g' by omega] at script
  rw [length_drop] at room
  refine ⟨⟨⟨by omega,by omega⟩,⟨inside,?_⟩,script⟩,same.symm⟩
  unfold Files.n at bounds ⊢
  omega

variable {cmd : Hunk} {rest : List Hunk}

theorem At.consume {g : Nat} (here : At f side (cmd :: rest) offset g) :
    g ≤ cmd.lstart ∧ At f side rest (offset + ((cmd.rlen : Int) - cmd.llen)) cmd.lend ∧
      shifted offset g + (cmd.lend - g) + cmd.rlen =
        shifted (offset + ((cmd.rlen : Int) - cmd.llen)) cmd.lend + cmd.llen ∧
      0 < cmd.llen + cmd.rlen := by
  have first := here.first
  have low := here.low
  have bounds := here.inside
  have script := here.script
  generalize left : (f.body .gca).drop (g - 1) = ls at script
  generalize right : (f.body side).drop (shifted offset g - 1) = rs at script
  cases script with
  | @hunk _ _ cl cr dl dr l r _ common changed script apart =>
    rw [forall₂_eq_eq_eq] at common
    subst common
    have total := congrArg List.length left
    have total' := congrArg List.length right
    simp only [length_drop,length_append] at total total'
    have moved : shifted (offset + ((dr.length : Int) - dl.length)) (g + cl.length + dl.length) =
        shifted offset g + cl.length + dr.length := by
      unfold shifted
      omega
    have leftRest : (f.body .gca).drop (g + cl.length + dl.length - 1) = l := by
      rw [show g + cl.length + dl.length - 1 = g - 1 + cl.length + dl.length by omega,← drop_drop,
        ← drop_drop,left,drop_left,drop_left]
    have rightRest : (f.body side).drop (shifted offset g + cl.length + dr.length - 1) = r := by
      rw [show shifted offset g + cl.length + dr.length - 1 = shifted offset
        g - 1 + cl.length + dr.length by omega,← drop_drop,← drop_drop,right,drop_left,drop_left]
    unfold Files.n at bounds
    refine ⟨Nat.le_add_right _ _,⟨⟨?_,?_⟩,⟨?_,?_⟩,?_⟩,?_,changed⟩
    · dsimp only [Hunk.lend]
      omega
    · dsimp only [Hunk.lend]
      omega
    · dsimp only [Hunk.lend]
      unfold Files.n
      omega
    · dsimp only [Hunk.lend]
      unfold Files.n
      omega
    · dsimp only [Hunk.lend]
      rw [moved,leftRest,rightRest]
      exact script
    · dsimp only [Hunk.lend]
      omega

/-- A walk in a region from line `S` of the GCA and line `y` of the side on; `k` commands were left
before it. -/
structure Walk.In (f : Files T) (side : Side) (S y k : Nat) (dw : Walk) : Prop where
  here : At f side dw.cmds dw.offset dw.end_
  start : dw.start = S ∧ (S : Int) + dw.offset - dw.lines = y
  grows : S ≤ dw.end_ ∧ y ≤ shifted dw.offset dw.end_
  taken : dw.cmds.length ≤ k ∧ (dw.cmds.length < k → S < dw.end_ ∨ y < shifted dw.offset dw.end_)

variable {S y k upto : Nat}

theorem Walk.In.stretch {dw : Walk} (inn : dw.In f side S y k) {e : Nat} (le : dw.end_ ≤ e)
    (inside : e ≤ f.n .gca + 1) (before : ∀ h ∈ dw.cmds.head?, e ≤ h.lstart) :
    Walk.In f side S y k { dw with end_ := e } := by
  obtain ⟨gca,there⟩ := inn.grows
  have more : shifted dw.offset dw.end_ ≤ shifted dw.offset e := by
    unfold shifted
    omega
  refine ⟨(inn.here.advance le inside before).1,inn.start,⟨gca.trans le,there.trans more⟩,
    inn.taken.1,?_⟩
  intro less
  rcases inn.taken.2 less with gca | there
  · exact .inl (Nat.lt_of_lt_of_le gca le)
  · exact .inr (Nat.lt_of_lt_of_le there more)

theorem diffwalk_extend_in (cmds : List Hunk) (dw : Walk) (inside : upto ≤ f.n .gca + 1)
    (inn : Walk.In f side S y k { dw with cmds := cmds }) :
    (diffwalk_extend cmds dw upto).In f side S y k ∧ (diffwalk_extend cmds dw upto).cmds.length ≤
      cmds.length ∧
      ((diffwalk_extend cmds dw upto).end_ = max dw.end_ upto ∨
        upto ≤ (diffwalk_extend cmds dw upto).end_ ∧ (diffwalk_extend cmds dw upto).cmds.length <
          cmds.length) ∧
      (∀ cmd ∈ cmds.head?, dw.end_ ≤ upto → cmd.lstart ≤ upto →
        (diffwalk_extend cmds dw upto).cmds.length < cmds.length) := by
  induction cmds generalizing dw with
  | nil =>
    have longest : (if upto < dw.end_ then dw.end_ else max dw.end_ upto) = max dw.end_ upto := by
      split <;> omega
    unfold diffwalk_extend
    rw [longest]
    exact ⟨inn.stretch (Nat.le_max_left _ _) (Nat.max_le.mpr ⟨inn.here.inside.1,inside⟩) nofun,
      le_rfl,.inl rfl,nofun⟩
  | cons cmd rest ih =>
    unfold diffwalk_extend
    split
    next before =>
      refine ⟨inn,le_rfl,.inl (Nat.max_eq_left (Nat.le_of_lt before)).symm,?_⟩
      omega
    next behind =>
    split
    next reached =>
      obtain ⟨after,here,width,changed⟩ := inn.here.consume
      have grows := inn.grows
      have start := inn.start
      have taken := inn.taken.1
      dsimp only at after width grows start taken
      have long : cmd.lend = cmd.lstart + cmd.llen := rfl
      rw [length_cons] at taken
      obtain ⟨inn',fewer,ends,_⟩ := ih { dw with lines := dw.lines + ((cmd.rlen : Int) - cmd.llen),
                                                 offset := dw.offset +
                                                 ((cmd.rlen : Int) - cmd.llen), end_ := cmd.lend }
        ⟨here,⟨start.1,by dsimp only; omega⟩,⟨by dsimp only; omega,by dsimp only; omega⟩,
          by dsimp only; omega,fun _ => by dsimp only; omega⟩
      refine ⟨inn',Nat.le_succ_of_le fewer,.inr ⟨?_,Nat.lt_succ_of_le fewer⟩,
        fun _ _ _ _ => Nat.lt_succ_of_le fewer⟩
      rcases ends with longest | ⟨far,_⟩
      · rw [longest]
        exact Nat.le_max_right _ _
      · exact far
    next beyond =>
      have longest : max dw.end_ (min upto cmd.lstart) = max dw.end_ upto := by omega
      rw [longest]
      refine ⟨inn.stretch (Nat.le_max_left _ _) (Nat.max_le.mpr ⟨inn.here.inside.1,inside⟩) ?_,
        le_rfl,.inl rfl,?_⟩
      · intro h head
        cases head
        omega
      · intro h head _ le
        cases head
        exact absurd le beyond

theorem diffwalk_start_in {dw : Walk} (here : At f side dw.cmds dw.offset S)
    (before : ∀ h ∈ dw.cmds.head?, S ≤ h.lstart) :
    ∃ dw', diffwalk_start dw S = .ok dw' ∧ dw'.In f side S (shifted dw.offset S) dw.cmds.length ∧
      ((∃ h ∈ dw.cmds.head?, h.lstart = S) → dw'.cmds.length < dw.cmds.length) := by
  obtain ⟨cmds,offset,start,end_,lines⟩ := dw
  dsimp only at here before ⊢
  have inn : Walk.In f side S (shifted offset S) cmds.length ⟨cmds,offset,S,S,0⟩ := by
    refine ⟨here,⟨rfl,?_⟩,⟨le_rfl,le_rfl⟩,le_rfl,fun less => absurd less (Nat.lt_irrefl _)⟩
    have first := here.first
    unfold shifted
    dsimp only
    omega
  unfold diffwalk_start
  cases cmds with
  | nil => exact ⟨_,rfl,inn,nofun⟩
  | cons cmd rest =>
    dsimp only
    rw [if_pos (before cmd rfl)]
    by_cases now : S = cmd.lstart
    · obtain ⟨inn',_,_,taken⟩ := diffwalk_extend_in (cmd :: rest) ⟨cmd :: rest,offset,S,S,0⟩
        here.consume.2.1.inside.1 inn
      have long : cmd.lstart ≤ cmd.lend := Nat.le_add_right _ _
      rw [if_pos now]
      exact ⟨_,rfl,inn',fun _ => taken cmd rfl (by dsimp only; omega) long⟩
    · rw [if_neg now]
      refine ⟨_,rfl,inn,?_⟩
      rintro ⟨h,head,same⟩
      cases head
      exact absurd same.symm now

theorem agree_in {y' k' : Nat} {ldiff rdiff : Walk} (fuel : Nat) (left : ldiff.In f .left S y k)
    (right : rdiff.In f .right S y' k')
    (enough : ldiff.cmds.length + rdiff.cmds.length + 2 ≤ fuel ∨ ldiff.end_ = rdiff.end_ ∧ 1 ≤ fuel) :
    ∃ l r, agree fuel ldiff rdiff = .ok (l, r) ∧ l.In f .left S y k ∧ r.In f .right S y' k' ∧
      l.end_ = r.end_ ∧
      l.cmds.length ≤ ldiff.cmds.length ∧ r.cmds.length ≤ rdiff.cmds.length := by
  induction fuel generalizing ldiff rdiff with
  | zero => omega
  | succ fuel ih =>
    unfold agree
    split
    next less =>
      obtain ⟨left',fewer,ends,_⟩ := diffwalk_extend_in ldiff.cmds ldiff right.here.inside.1 left
      obtain ⟨l,r,ran,leftIn,rightIn,same,few,few'⟩ := ih left' right (by omega)
      exact ⟨l,r,ran,leftIn,rightIn,same,few.trans fewer,few'⟩
    · split
      next less =>
        obtain ⟨right',fewer,ends,_⟩ := diffwalk_extend_in rdiff.cmds rdiff left.here.inside.1 right
        obtain ⟨l,r,ran,leftIn,rightIn,same,few,few'⟩ := ih left right' (by omega)
        exact ⟨l,r,ran,leftIn,rightIn,same,few,few'.trans fewer⟩
      · exact ⟨ldiff,rdiff,rfl,left,right,by omega,le_rfl,le_rfl⟩

theorem Walk.In.range {dw : Walk} (inn : dw.In f side S y k) :
    diffwalk_range dw = (y - 1, shifted dw.offset dw.end_ - 1) := by
  have start := inn.start
  unfold diffwalk_range shifted
  congr 1 <;> omega

/-! ### The pieces of the merge -/

/-- What one turn of the loop prints: lines of the GCA, and what the region is resolved to. -/
structure Piece (T : Type) where
  common : List (Line T)
  region : Region T

def printPieces [DecidableEq T] (f : Files T) (diff_items : List T → List T → List Hunk)
    (enable : MergeFcn → Bool) (last : List (Line T)) :
    List (Piece T) → Except Stop (List (DiffPrinted T))
  | [] => .ok (last.map .gca)
  | p :: pieces =>
    (resolveAll f diff_items enable (f.size + 1) p.region []).bind (fun regions =>
      (printPieces f diff_items enable last pieces).map (fun later =>
        p.common.map .gca ++ regions.map .region ++ later))

/-- Where the two walks stand at line `g` of the GCA. -/
def standing (ldiff rdiff : Walk) (g : Nat) : Marks
  | .left => shifted ldiff.offset g - 1
  | .right => shifted rdiff.offset g - 1
  | .gca => g - 1
  | .gcar => g - 1

structure FoundBy (f : Files T) (ldiff rdiff : Walk) (c : Region T) : Prop where
  listed : Listed f c.end_ c.start c []
  waiting : Waiting f c
  left : ldiff.cmds = [] → f.body .left = f.body .gca → Twin .left .gca c
  right : rdiff.cmds = [] → f.body .right = f.body .gca → Twin .right .gca c
  both : ldiff.cmds = rdiff.cmds → ldiff.offset = rdiff.offset → Twin .left .right c

theorem At.level {g : Nat} (here : At f side [] offset g) (bodies : f.body side = f.body .gca) :
    shifted offset g = g := by
  have low := here.low
  have first := here.first
  have bounds := here.inside
  have length := congrArg List.length (script_done here.script)
  unfold Files.n at bounds
  rw [length_drop,length_drop,bodies] at length
  rw [bodies] at bounds
  omega

theorem Walk.In.level {dw : Walk} (inn : dw.In f side S (shifted offset S) cmds.length)
    (here : At f side cmds offset S) (idle : cmds = []) (bodies : f.body side = f.body .gca) :
    shifted offset S = S ∧ shifted dw.offset dw.end_ = dw.end_ := by
  subst idle
  have later := inn.here
  rw [eq_nil_of_length_eq_zero (Nat.le_zero.mp inn.taken.1)] at later
  exact ⟨here.level bodies,later.level bodies⟩

theorem drop_split {α : Type} (l : List α) {a b : Nat} (le : a ≤ b) :
    (l.drop a).take (b - a) ++ l.drop b = l.drop a := by
  rw [show l.drop b = (l.drop a).drop (b - a) by rw [drop_drop,Nat.add_sub_cancel' le],
    take_append_drop]

section Regions
variable {ldiff rdiff : Walk} {y' k' : Nat}

theorem diffRegion_start (left : ldiff.In f .left S y k) (right : rdiff.In f .right S y' k')
    (side : Side) :
    (diffRegion f S ldiff rdiff).start side =
      match side with
      | .left => y - 1
      | .right => y' - 1
      | _ => S - 1 := by
  cases side with
  | left => exact congrArg Prod.fst left.range
  | right => exact congrArg Prod.fst right.range
  | gca => rfl
  | gcar => rfl

theorem diffRegion_end (left : ldiff.In f .left S y k) (right : rdiff.In f .right S y' k')
    (same : ldiff.end_ = rdiff.end_) :
    (diffRegion f S ldiff rdiff).end_ = standing ldiff rdiff ldiff.end_ := by
  funext side
  cases side with
  | left => exact congrArg Prod.snd left.range
  | right => exact (congrArg Prod.snd right.range).trans (by rw [same]; rfl)
  | gca => rfl
  | gcar => rfl

theorem diffRegion_found {l r : Walk} (left : ldiff.In f .left S (shifted l.offset S) l.cmds.length)
    (right : rdiff.In f .right S (shifted r.offset S) r.cmds.length) (same : ldiff.end_ = rdiff.end_)
    (hereLeft : At f .left l.cmds l.offset S) (hereRight : At f .right r.cmds r.offset S)
    (taken : ldiff.cmds.length < l.cmds.length ∨ rdiff.cmds.length < r.cmds.length)
    (alike : l.cmds = r.cmds → l.offset = r.offset → ldiff = rdiff) :
    FoundBy f l r (diffRegion f S ldiff rdiff) := by
  have start := diffRegion_start left right
  have ends := diffRegion_end left right same
  have low := hereLeft.first.1
  have grows := left.grows
  have grows' := right.grows
  have inside := left.here.inside
  have inside' := right.here.inside
  rw [← same] at grows' inside'
  have twin : f.n .gcar = f.n .gca := congrArg List.length f.sameGca
  have ordered (side : Side) : (diffRegion f S ldiff rdiff).start side ≤
      (diffRegion f S ldiff rdiff).end_ side := by
    rw [start,ends]
    cases side <;> dsimp only [standing] <;> omega
  have within (side : Side) : (diffRegion f S ldiff rdiff).end_ side ≤ f.n side := by
    rw [ends]
    cases side <;> dsimp only [standing] <;> omega
  have end_seq : (diffRegion f S ldiff rdiff).end_seq ≠ 0 := f.seqAt_ne_zero _ _
  refine ⟨⟨⟨Common.refl (fun side => (ordered side).trans (within side)),ordered,
    Common.refl within⟩,?_,?_,nofun,nofun⟩,⟨?_,?_,rfl,rfl⟩,?_,?_,?_⟩
  · intro c member
    rw [mem_singleton.mp member]
    exact ⟨rfl,rfl⟩
  · intro c member
    rw [mem_singleton.mp member]
    exact end_seq
  · rcases taken with less | less
    · rcases left.taken.2 less with gca | there
      · exact ⟨.gca,by rw [start,ends]; dsimp only [standing]; omega⟩
      · exact ⟨.left,by rw [start,ends]; have first := hereLeft.low; dsimp only [standing]; omega⟩
    · rcases right.taken.2 less with gca | there
      · exact ⟨.gca,by rw [start,ends]; dsimp only [standing]; omega⟩
      · rw [← same] at there
        exact ⟨.right,by rw [start,ends]; have first := hereRight.low; dsimp only [standing]; omega⟩
  · change (if S - 1 > 0 then f.seqAt .gca (S - 2) else 0) ≤ f.seqAt .gca (S - 1)
    split
    · exact f.seqAt_mono (by omega) (by omega)
    · exact Nat.zero_le _
  · intro idle bodies
    obtain ⟨level,level'⟩ := left.level hereLeft idle bodies
    refine ⟨?_,?_⟩
    · rw [start,start]
      rw [level]
    · rw [ends]
      dsimp only [standing]
      rw [level']
  · intro idle bodies
    obtain ⟨level,level'⟩ := right.level hereRight idle bodies
    rw [← same] at level'
    refine ⟨?_,?_⟩
    · rw [start,start]
      rw [level]
    · rw [ends]
      dsimp only [standing]
      rw [level']
  · intro cmds offset
    constructor
    · rw [start,start]
      rw [offset]
    · rw [ends]
      dsimp only [standing]
      rw [alike cmds offset]

end Regions

theorem common_split {g S : Nat} (here : At f side cmds offset g)
    (common : ((f.body side).drop (shifted offset g - 1)).take (S - g) =
      ((f.body .gca).drop (g - 1)).take (S - g))
    (le : g ≤ S) :
    ((f.body .gca).drop (g - 1)).take (S - g) ++ (f.body side).drop (shifted offset S - 1) =
      (f.body side).drop (shifted offset g - 1) := by
  have moved : S - g = shifted offset S - 1 - (shifted offset g - 1) ∧
      shifted offset g - 1 ≤ shifted offset S - 1 := by
    have first := here.first
    unfold shifted
    omega
  rw [← common,moved.1]
  exact drop_split _ moved.2

private theorem nextStart_spec {ldiff rdiff : Walk} {S : Nat}
    (next : nextStart (diffwalk_nextdiff ldiff) (diffwalk_nextdiff rdiff) = some S) :
    (∀ h ∈ ldiff.cmds.head?, S ≤ h.lstart) ∧ (∀ h ∈ rdiff.cmds.head?, S ≤ h.lstart) ∧
      ((∃ h ∈ ldiff.cmds.head?, h.lstart = S) ∨ ∃ h ∈ rdiff.cmds.head?, h.lstart = S) := by
  unfold diffwalk_nextdiff at next
  cases left : ldiff.cmds.head? <;> cases right : rdiff.cmds.head? <;> rw [left,right] at next <;>
    simp [nextStart] at next ⊢ <;> omega

theorem At.first_le {g : Nat} (here : At f side cmds offset g) {h : Hunk} (head : h ∈ cmds.head?) :
    g ≤ h.lstart ∧ h.lstart ≤ f.n .gca + 1 := by
  cases cmds with
  | nil => cases head
  | cons cmd rest =>
    cases head
    obtain ⟨after,there,_⟩ := here.consume
    exact ⟨after,(Nat.le_add_right _ _).trans there.inside.1⟩

private theorem diffLoop_pieces {ldiff rdiff : Walk} (fuel g : Nat)
    (left : At f .left ldiff.cmds ldiff.offset g) (right : At f .right rdiff.cmds rdiff.offset g)
    (enough : ldiff.cmds.length + rdiff.cmds.length < fuel) :
    ∃ pieces last, (∀ [DecidableEq T] diff_items enable,
        diffLoop f diff_items enable fuel g ldiff rdiff = printPieces f diff_items enable last
          pieces) ∧
      (∀ side, pieces.flatMap (fun p => p.common ++ p.region.lines f side) ++ last =
        (f.body side).drop (standing ldiff rdiff g side)) ∧
      ∀ p ∈ pieces, FoundBy f ldiff rdiff p.region := by
  induction fuel generalizing g ldiff rdiff with
  | zero => cases enough
  | succ fuel ih =>
    have low := left.first.1
    cases next : nextStart (diffwalk_nextdiff ldiff) (diffwalk_nextdiff rdiff) with
    | none =>
      have done : ldiff.cmds = [] ∧ rdiff.cmds = [] := by
        unfold diffwalk_nextdiff at next
        cases l : ldiff.cmds <;> cases r : rdiff.cmds <;> rw [l,r] at next <;>
          simp [nextStart] at next ⊢
      have whole : gcaLines f g (f.n .gca + 1) = ((f.body .gca).drop (g - 1)).map .gca := by
        unfold gcaLines
        rw [take_of_length_le (by rw [length_drop]; unfold Files.n; omega)]
      refine ⟨[],(f.body .gca).drop (g - 1),?_,?_,nofun⟩
      · intro _ diff_items enable
        unfold diffLoop
        rw [next]
        exact congrArg Except.ok whole
      · intro side
        rw [done.1] at left
        rw [done.2] at right
        cases side with
        | left => exact script_done left.script
        | right => exact script_done right.script
        | gca => rfl
        | gcar => exact congrArg (List.drop (g - 1)) f.sameGca.symm
    | some S =>
      obtain ⟨before,before',first⟩ := nextStart_spec next
      have range : g ≤ S ∧ S ≤ f.n .gca + 1 := by
        rcases first with ⟨h,head,rfl⟩ | ⟨h,head,rfl⟩
        · exact left.first_le head
        · exact right.first_le head
      obtain ⟨hereLeft,commonLeft⟩ := left.advance range.1 range.2 before
      obtain ⟨hereRight,commonRight⟩ := right.advance range.1 range.2 before'
      obtain ⟨l₁,startLeft,inLeft,takenLeft⟩ := diffwalk_start_in hereLeft before
      obtain ⟨r₁,startRight,inRight,takenRight⟩ := diffwalk_start_in hereRight before'
      obtain ⟨l₂,r₂,agreed,inLeft₂,inRight₂,same,few,few'⟩ := agree_in
        (l₁.cmds.length + r₁.cmds.length + 2) inLeft inRight
        (.inl le_rfl)
      have taken : l₂.cmds.length < ldiff.cmds.length ∨ r₂.cmds.length < rdiff.cmds.length := by
        rcases first with now | now
        · exact .inl (Nat.lt_of_le_of_lt few (takenLeft now))
        · exact .inr (Nat.lt_of_le_of_lt few' (takenRight now))
      have fewer := inLeft₂.taken.1
      have fewer' := inRight₂.taken.1
      have hereRight₂ := inRight₂.here
      rw [← same] at hereRight₂
      have alike : ldiff.cmds = rdiff.cmds → ldiff.offset = rdiff.offset → l₂ = r₂ := by
        intro cmds offset
        have starts : diffwalk_start ldiff S = diffwalk_start rdiff S := by
          unfold diffwalk_start
          rw [cmds,offset]
        rw [startLeft,startRight] at starts
        cases starts
        rw [agree,if_neg (Nat.lt_irrefl _),if_neg (Nat.lt_irrefl _)] at agreed
        cases agreed
        rfl
      have found := diffRegion_found inLeft₂ inRight₂ same hereLeft hereRight taken alike
      obtain ⟨pieces,last,ran,cover,all⟩ := ih l₂.end_ inLeft₂.here hereRight₂ (by omega)
      refine ⟨⟨((f.body .gca).drop (g - 1)).take (S - g),diffRegion f S l₂ r₂⟩ :: pieces,last,
        ?_,?_,?_⟩
      · intro _ diff_items enable
        unfold diffLoop
        rw [next]
        dsimp only
        rw [if_neg (by omega),startLeft,Except.bind,startRight,Except.bind,agreed,Except.bind]
        rw [ran]
        rfl
      · intro side
        have starts := diffRegion_start inLeft₂ inRight₂ side
        have ordered := found.listed.cover.2.1 side
        have gca : ((f.body .gca).drop (g - 1)).take (S - g) ++ (f.body .gca).drop (S - 1) =
            (f.body .gca).drop (g - 1) := by
          rw [show S - g = S - 1 - (g - 1) by omega]
          exact drop_split _ (by omega)
        have common : ((f.body .gca).drop (g - 1)).take (S - g) ++ (f.body side).drop
          ((diffRegion f S l₂ r₂).start side) =
            (f.body side).drop (standing ldiff rdiff g side) := by
          rw [starts]
          cases side with
          | left => exact common_split left commonLeft range.1
          | right => exact common_split right commonRight range.1
          | gca => exact gca
          | gcar =>
            rw [f.sameGca]
            exact gca
        rw [flatMap_cons,append_assoc,cover,append_assoc,← diffRegion_end inLeft₂ inRight₂ same,
          ← common,← drop_split _ ordered]
        rfl
      · refine forall_mem_cons.mpr ⟨found,fun p member => ?_⟩
        have later := all p member
        refine ⟨later.listed,later.waiting,fun idle => later.left ?_,fun idle => later.right ?_,?_⟩
        · rw [idle] at fewer
          exact eq_nil_of_length_eq_zero (Nat.le_zero.mp fewer)
        · rw [idle] at fewer'
          exact eq_nil_of_length_eq_zero (Nat.le_zero.mp fewer')
        · intro cmds offset
          have same := alike cmds offset
          exact later.both (congrArg _ same) (congrArg _ same)

variable (f) in
theorem do_diff_merge_pieces {ldiff rdiff : List Hunk}
    (left : Libdiff.Script Eq 1 1 (f.body .gca) (f.body .left) ldiff)
    (right : Libdiff.Script Eq 1 1 (f.body .gca) (f.body .right) rdiff) :
    ∃ pieces last, (∀ [DecidableEq T] diff_items enable,
        do_diff_merge f diff_items enable ldiff rdiff = printPieces f diff_items enable last pieces) ∧
      (∀ side, pieces.flatMap (fun p => p.common ++ p.region.lines f side) ++ last = f.body side) ∧
      ∀ p ∈ pieces, FoundBy f (diffwalk_new ldiff) (diffwalk_new rdiff) p.region := by
  have start (side : Side) (cmds : List Hunk)
    (script : Libdiff.Script Eq 1 1 (f.body .gca) (f.body side) cmds) :
      At f side cmds 0 1 :=
    ⟨⟨le_rfl,le_rfl⟩,⟨Nat.le_add_left _ _,Nat.le_add_left _ _⟩,script⟩
  have atLeft : At f .left (diffwalk_new ldiff).cmds (diffwalk_new ldiff).offset 1 :=
    start .left ldiff left
  have atRight : At f .right (diffwalk_new rdiff).cmds (diffwalk_new rdiff).offset 1 :=
    start .right rdiff right
  obtain ⟨pieces,last,ran,cover,found⟩ := diffLoop_pieces _ 1 atLeft atRight (Nat.lt_succ_self _)
  refine ⟨pieces,last,ran,?_,found⟩
  intro side
  rw [cover]
  cases side <;> rfl

end Walks

section Tiles
variable {T : Type} {f : Files T} {upto mk : Marks} {enable : MergeFcn → Bool}

/-- The regions stand one behind the other up to the end. -/
def Tiled (upto : Marks) : Marks → List (Region T) → Prop
  | mk, [] => mk = upto
  | mk, c :: next => c.start = mk ∧ Tiled upto c.end_ next

private theorem kept_tiled (off : enable .merge_with_following_gca = false) (fcns : List MergeFcn) :
    Kept f upto mk enable fcns (fun c next => Tiled upto c.end_ next) := by
  intro fcn _ enabled c next c' next' _ _ move tiled
  cases move with
  | merged => exact tiled
  | joined tmp rest => exact tiled.2
  | split => exact ⟨rfl,tiled⟩
  | extended _ _ following =>
    rw [following,off] at enabled
    cases enabled

variable [DecidableEq T] (diff_items : List T → List T → List Hunk)

/-- Without `merge_with_following_gca` a region is resolved to regions that are its parts, in order.
-/
theorem resolveAll_spec (off : enable .merge_with_following_gca = false)
    (same : enable .merge_same_changes = true) {c : Region T} {next : List (Region T)} (fuel : Nat)
    (listed : Listed f upto mk c next) (waiting : Waiting f c) (tiled : Tiled upto c.end_ next)
    (enough : remaining f c.start < fuel) :
    ∃ regions, resolveAll f diff_items enable fuel c next = .ok regions ∧
      (∀ r ∈ regions, Origin f r) ∧
      ∀ side, regions.flatMap (fun r => r.lines f side) =
        ((f.body side).drop (c.start side)).take (upto side - c.start side) := by
  induction fuel generalizing c next mk with
  | zero => cases enough
  | succ fuel ih =>
    have fits : enable .merge_with_following_gca = true → upto = f.n := fun on => by cases off ▸ on
    obtain ⟨c',next',resolved,listed',start,lines⟩ := resolve_conflict_spec diff_items
      (runKeeps_nonEmpty diff_items fits (.inl same)) listed waiting waiting.nonempty
    obtain ⟨_,_,resolved₁,_,_,origin⟩ := resolve_conflict_spec diff_items
      (runKeeps diff_items fits (kept_origin _)) listed
      waiting (fun _ merged => by cases waiting.merged ▸ merged)
    obtain ⟨_,_,resolved₂,_,_,tiled'⟩ := resolve_conflict_spec diff_items
      (runKeeps diff_items fits (kept_tiled off _)) listed
      waiting tiled
    rw [resolved] at resolved₁ resolved₂
    cases resolved₁
    cases resolved₂
    unfold resolveAll
    rw [resolved,Except.bind]
    cases next' with
    | nil =>
      have last : c'.end_ = upto := tiled'
      refine ⟨[c'],rfl,forall_mem_singleton.mpr origin,?_⟩
      intro side
      rw [flatMap_singleton,← start,← last]
      rfl
    | cons c₁ next₁ =>
      obtain ⟨adjacent,tiled₁⟩ := tiled'
      have placed := listed'.placed
      have less : remaining f c₁.start < remaining f c.start := by
        obtain ⟨side,less⟩ := lines
        rw [adjacent,← start]
        exact remaining_lt (fun side => ⟨placed.ordered side,placed.inside side⟩) less
      obtain ⟨regions,ran,origins,parts⟩ :=
        ih listed'.tail (listed'.waiting c₁ mem_cons_self) tiled₁ (by omega)
      refine ⟨c' :: regions,?_,forall_mem_cons.mpr ⟨origin,origins⟩,?_⟩
      · dsimp only
        rw [ran]
        rfl
      · intro side
        have before := placed.ordered side
        have after := listed'.cover.2.2.le side
        rw [flatMap_cons,parts,adjacent,← start]
        unfold Region.lines
        rw [show upto side - c'.start side = c'.end_ side - c'.start
          side + (upto side - c'.end_ side) by omega,take_add,drop_drop,Nat.add_sub_cancel' before]

end Tiles

section Laws
variable {T : Type}

def DiffPrinted.text (f : Files T) : DiffPrinted T → List T
  | .gca line => [line.text]
  | .region c => c.output f

def diffConflicts (out : List (DiffPrinted T)) : Bool := out.any (fun p =>
    match p with
    | .gca _ => false
    | .region c => c.merged.isNone)

theorem diffConflicts_append (out out' : List (DiffPrinted T)) :
    diffConflicts (out ++ out') = (diffConflicts out || diffConflicts out') := any_append

theorem diffConflicts_gca (lines : List (Line T)) : diffConflicts (lines.map .gca) = false := by
  unfold diffConflicts
  rw [any_map,any_eq_false]
  exact fun _ _ => Bool.false_ne_true

private theorem text_gca (f : Files T) (lines : List (Line T)) :
    (lines.map .gca).flatMap (DiffPrinted.text f) = lines.map Line.text := by
  rw [flatMap_map]
  exact flatMap_pure_eq_map Line.text lines

structure Prints (f : Files T) (out : List (DiffPrinted T)) (text : List T) : Prop where
  clean : diffConflicts out = false
  text : out.flatMap (DiffPrinted.text f) = text

variable {f : Files T}

theorem prints_gca (lines : List (Line T)) : Prints f (lines.map .gca) (lines.map Line.text) :=
  ⟨diffConflicts_gca lines,text_gca f lines⟩

theorem Prints.append {out out' : List (DiffPrinted T)} {text text' : List T}
    (first : Prints f out text) (second : Prints f out' text') :
    Prints f (out ++ out') (text ++ text') := by
  constructor
  · rw [diffConflicts_append,first.clean,second.clean]
    rfl
  · rw [flatMap_append,first.text,second.text]

variable [DecidableEq T] {side : Side} (diff_items : List T → List T → List Hunk)

theorem resolveAll_auto {c : Region T} (unmerged : c.merged = none) (auto : Auto f side c)
    (fuel : Nat) :
    ∃ c', resolveAll f diff_items (fun _ => true) (fuel + 1) c [] = .ok [c'] ∧ Prints f [.region c']
    (c.texts f side) := by
  have table : mergefcns =
    [.merge_conflicts] ++ ([.merge_same_changes,.merge_only_one] ++ mergefcns.drop 3) := rfl
  obtain ⟨lines,fcn,text,merged⟩ := auto
  refine ⟨{ c with merged := some lines, algos := c.algos ++ [fcn] },?_,rfl,?_⟩
  · unfold resolveAll resolve_conflict
    rw [resolveLoop,table,tryFcns_append diff_items _ _ _ unmerged]
    have alone : tryFcns f diff_items (fun _ => true) [.merge_conflicts] false c [] =
      .ok (false, c, []) := rfl
    rw [alone,Except.bind]
    rw [if_neg (by rw [unmerged]; exact Bool.false_ne_true),
      tryFcns_append diff_items _ _ _ unmerged,merged]
    rfl
  · exact (append_nil _).trans text

theorem printPieces_auto (last : List (Line T)) (pieces : List (Piece T))
    (auto : ∀ p ∈ pieces, p.region.merged = none ∧ Auto f side p.region) :
    ∃ out, printPieces f diff_items (fun _ => true) last pieces = .ok out ∧
      Prints f out
        ((pieces.flatMap (fun p => p.common ++ p.region.lines f side) ++ last).map Line.text) := by
  induction pieces with
  | nil => exact ⟨_,rfl,prints_gca last⟩
  | cons p pieces ih =>
    obtain ⟨⟨unmerged,first⟩,rest⟩ := forall_mem_cons.mp auto
    obtain ⟨c',resolved,printed⟩ := resolveAll_auto diff_items unmerged first f.size
    obtain ⟨out,ran,prints⟩ := ih rest
    refine ⟨p.common.map .gca ++ [.region c'] ++ out,?_,?_⟩
    · unfold printPieces
      rw [resolved,Except.bind]
      rw [ran]
      rfl
    · rw [flatMap_cons,append_assoc,append_assoc,map_append,map_append,← append_assoc]
      exact ((prints_gca p.common).append printed).append prints

theorem printPieces_ok {enable : MergeFcn → Bool} (last : List (Line T)) (pieces : List (Piece T))
    (all : ∀ p ∈ pieces, ∃ regions, resolveAll f diff_items enable (f.size + 1) p.region [] =
      .ok regions) :
    ∃ out, printPieces f diff_items enable last pieces = .ok out := by
  induction pieces with
  | nil => exact ⟨_,rfl⟩
  | cons p pieces ih =>
    obtain ⟨⟨regions,resolved⟩,rest⟩ := forall_mem_cons.mp all
    obtain ⟨out,ran⟩ := ih rest
    unfold printPieces
    rw [resolved,Except.bind]
    rw [ran]
    exact ⟨_,rfl⟩

end Laws

end BitKeeper.Smerge
