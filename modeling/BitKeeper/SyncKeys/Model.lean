import BitKeeper.Graph.Table

/-!
Key synchronisation of two ChangeSet files (`synckeys.c`). The three programs exchange lines; a line
is one of the `@...@` markers or a delta key.
-/

namespace BitKeeper.SyncKeys

/-- A ChangeSet file. Equality on `K` is `keycmp_nopath(a, b) == 0`; with `fake` the first delta is
the `Fake` 1.0 with date zero and `kid` its `sccs_kid`. -/
structure CsetFile (K : Type) extends Graph where
  key : Nat → K
  fake : Bool
  kid : Nat
  key_inj : ∀ d e, d ∈ toGraph.serials → e ∈ toGraph.serials → key d = key e → d = e
  nonempty : table ≠ 0
  root_real : tag 1 = false
  kid_real : fake = true → kid ∈ toGraph.serials ∧ tag kid = false

inductive Line (K : Type)
  | lodProbe
  | tagProbe
  | endProbe
  | noMatch
  | emptyTree
  | fail
  | lodMatch
  | tagMatch
  | endMatches
  | endAll
  | key (k : K)
  deriving DecidableEq

/-- How a program of the exchange can stop early: a return code, an `exit`, a failed assertion, or a
marker where a key is due. -/
inductive Stop
  | rc (code : Int)
  | exit (code : Nat)
  | assertion
  | stray
  deriving DecidableEq

variable {K : Type}

def sccs_ino (s : CsetFile K) : Nat := if s.fake then s.kid else 1

def sccs_findKey [DecidableEq K] (s : CsetFile K) (k : K) : Nat :=
  (s.serials.find? (fun d => s.key d = k)).getD 0

/-! ### The client's probe -/

/-- `while (d && (d > top - i + 1)) d = PARENT(s, d);` -/
def lodWalk (s : CsetFile K) (limit d : Nat) : Nat :=
  if _h : d ≠ 0 ∧ limit < d then lodWalk s limit (s.parent d) else d
termination_by d
decreasing_by exact s.parent_lt d _h.1

theorem lodWalk_le (s : CsetFile K) (limit d : Nat) : lodWalk s limit d ≤ d := by
  fun_induction lodWalk s limit d with
  | case1 d h ih => exact le_trans ih (le_of_lt (s.parent_lt d h.1))
  | case2 d h => exact Nat.le_refl d

def lodLoop (s : CsetFile K) (top i d : Nat) : Except Stop (List Nat) :=
  if h : d ≠ 0 ∧ d ≠ 1 then
    if top < i - 1 then .ok []
    else
      if real : lodWalk s (top + 1 - i) d = 0 then .ok []
      else if s.tag (lodWalk s (top + 1 - i) d) then .error .assertion
      else do
        let rest ← lodLoop s top (2 * i) (s.parent (lodWalk s (top + 1 - i) d))
        pure (lodWalk s (top + 1 - i) d :: rest)
  else .ok []
termination_by d
decreasing_by
  exact lt_of_lt_of_le (s.parent_lt _ real) (lodWalk_le s _ d)

/-- The inner loop of `tag_probekey`: at most `steps` moves to the tag parent. -/
def tagWalk (s : CsetFile K) : Nat → Nat → Nat
  | 0, d => d
  | steps + 1, d => if s.ptag d = 0 then d else tagWalk s steps (s.ptag d)

theorem tagWalk_le (s : CsetFile K) (steps d : Nat) (real : d ≠ 0) :
    tagWalk s steps d ≤ d ∧ tagWalk s steps d ≠ 0 := by
  induction steps generalizing d with
  | zero => exact ⟨Nat.le_refl d,real⟩
  | succ steps ih =>
    by_cases leaf : s.ptag d = 0
    · simp only [tagWalk,if_pos leaf]
      exact ⟨Nat.le_refl d,real⟩
    · simp only [tagWalk,if_neg leaf]
      have below := s.ptag_lt d real
      obtain ⟨le,ne⟩ := ih (s.ptag d) leaf
      exact ⟨by omega,ne⟩

def tagLoop (s : CsetFile K) (steps d : Nat) : List Nat :=
  if real : d = 0 then []
  else
    tagWalk s steps d :: if more : s.ptag (tagWalk s steps d) ≠ 0 then
        tagLoop s (2 * steps + 1) (tagWalk s steps d)
      else []
termination_by 2 * d + 1 - min steps 1
decreasing_by
  -- Only the first round, with no move, keeps `d`; it raises `steps`.
  have bound := tagWalk_le s steps d real
  cases steps with
  | zero =>
    simp only [tagWalk]
    omega
  | succ steps =>
    have moved : tagWalk s (steps + 1) d < d := by
      by_cases leaf : s.ptag d = 0
      · simp only [tagWalk,if_pos leaf] at more
        exact absurd leaf more
      · simp only [tagWalk,if_neg leaf]
        exact lt_of_le_of_lt (tagWalk_le s steps _ leaf).1 (s.ptag_lt d real)
    omega

def tagTip (s : CsetFile K) : Nat := (s.serials.reverse.find? (fun d => s.ptag d ≠ 0)).getD 0

/-- `probekey(s, 0, 0, f)` with `top` for `sccs_top(s)`. -/
def probekey (s : CsetFile K) (top : Nat) : Except Stop (List (Line K)) := do
  let lod ← lodLoop s top 1 top
  let tags := if tagTip s = 0 then []
    else .tagProbe :: (tagLoop s 0 (tagTip s)).map (fun d => .key (s.key d))
  pure (.lodProbe :: lod.map (fun d => .key (s.key d)) ++ [.key (s.key (sccs_ino s))] ++
    tags ++ [.endProbe])

/-! ### Colouring -/

def mark (marked : Nat → Bool) (d : Nat) : Nat → Bool := fun x => if x = d then true else marked x

/-- The `while` loop follows the parents, the recursion the merge parents; a tag trips the
assertion. -/
def sccs_color (s : CsetFile K) (red : Nat → Bool) (d : Nat) : Except Stop (Nat → Bool) :=
  if _h : d = 0 ∨ red d = true then .ok red
  else if s.tag d then .error .assertion
  else
    (if s.merge d = 0 then .ok (mark red d) else sccs_color s (mark red d) (s.merge d)).bind
      (fun red => sccs_color s red (s.parent d))
termination_by d
decreasing_by
  · exact s.merge_lt d (fun zero => _h (.inl zero))
  · exact s.parent_lt d (fun zero => _h (.inl zero))

structure Flags where
  red : Nat → Bool
  blue : Nat → Bool

def sccs_tagcolor (s : CsetFile K) (flags : Flags) (d : Nat) : Flags :=
  if _h : d = 0 ∨ flags.blue d = true then flags
  else
    let flags := { flags with blue := mark flags.blue d }
    let flags := if s.ptag d = 0 then flags else sccs_tagcolor s flags (s.ptag d)
    let flags := if s.ptag d = 0 ∨ s.mtag d = 0 then flags else sccs_tagcolor s flags (s.mtag d)
    { flags with red := mark flags.red d }
termination_by d
decreasing_by
  · exact s.ptag_lt d (fun zero => _h (.inl zero))
  · exact s.mtag_lt d (fun zero => _h (.inl zero))

/-! ### The server's answer -/

section Listkey
variable [DecidableEq K]

/-- Read keys up to the next line that starts with `@`. -/
def spanKeys : List (Line K) → List K × List (Line K)
  | .key k :: rest => (k :: (spanKeys rest).1, (spanKeys rest).2)
  | lines => ([], lines)

/-- The first key of a probe that the file has. -/
def firstMatch (s : CsetFile K) (keys : List K) : Nat :=
  keys.foldl (fun found k => if found ≠ 0 then found else sccs_findKey s k) 0

/-- Phase 2 of `listkey`: the keys that carry no red mark, newest first. -/
def unmarkedKeys (s : CsetFile K) (red : Nat → Bool) : List K :=
  (s.serials.reverse.filter (fun d => !red d)).map s.key

/-- What `listkey` writes once the probe has been read. -/
def listReply (s : CsetFile K) (probed tagd : Nat) : Except Stop (List (Line K)) := do
  let red ← sccs_color s (fun _ => false) probed
  let flags : Flags := { red := red, blue := fun _ => false }
  let flags := if tagd = 0 then flags else sccs_tagcolor s flags tagd
  let tagLines := if tagd = 0 then [] else [.tagMatch,.key (s.key tagd)]
  pure ([.lodMatch,.key (s.key probed)] ++ tagLines ++ [.endMatches] ++
    (unmarkedKeys s flags.red).map .key ++ [.endAll])

def listkey (s : CsetFile K) (input : List (Line K)) : Except Stop (List (Line K)) := match input with
  | [] => .error (.rc 2)
  | .lodProbe :: rest =>
    let (lodKeys, rest) := spanKeys rest
    let probed := firstMatch s lodKeys
    let sawRootkey := lodKeys.getLast? = some (s.key (sccs_ino s))
    let (tagd, rest) := match rest with
      | .tagProbe :: rest => (firstMatch s (spanKeys rest).1, (spanKeys rest).2)
      | rest => (0, rest)
    match rest with
    | .endProbe :: _ =>
      if probed ≠ 0 ∧ sawRootkey then listReply s probed tagd
      else .ok [.noMatch,.endAll]
    | _ => .error (.rc 3)
  | _ :: _ => .error (.rc 3)

/-! ### The client's pruning -/

structure Pruned (K M : Type) where
  localOnly : Nat
  remoteCsets : Nat
  remoteTags : Nat
  lkeys : List M
  rkeys : List K
  flags : Flags

structure Remote (K : Type) where
  csets : Nat
  tags : Nat
  rkeys : List K

/-- Colour from the keys of `@LOD MATCH@`; an unknown key is reported and dropped. -/
def colorMatches (s : CsetFile K) : List K → (Nat → Bool) → Except Stop (Nat → Bool)
  | [], red => .ok red
  | k :: rest, red =>
    if sccs_findKey s k = 0 then colorMatches s rest red
    else do
      let red ← sccs_color s red (sccs_findKey s k)
      colorMatches s rest red

def tagcolorMatches (s : CsetFile K) : List K → Flags → Except Stop Flags
  | [], flags => .ok flags
  | k :: rest, flags =>
    if sccs_findKey s k = 0 then .error .assertion
    else tagcolorMatches s rest (sccs_tagcolor s flags (sccs_findKey s k))

/-- The loop over the keys the matches do not imply, up to `@END@`. The source takes the text of any
other marker for a key; such a reply is outside the model. -/
def readRemote (s : CsetFile K) (istagkey : K → Bool) (skip : K → Bool) :
    List (Line K) → Flags → Remote K → Except Stop (Flags × Remote K)
  | [], _, _ => .error (.exit 2)
  | .endAll :: _, flags, remote => .ok (flags, remote)
  | .key k :: rest, flags, remote =>
    if sccs_findKey s k ≠ 0 then
      readRemote s istagkey skip rest
        { flags with red := mark flags.red (sccs_findKey s k) } remote
    else if skip k then readRemote s istagkey skip rest flags remote
    else
      readRemote s istagkey skip rest flags
        { csets := if istagkey k then remote.csets else remote.csets + 1
          tags := if istagkey k then remote.tags + 1 else remote.tags
          rkeys := remote.rkeys ++ [k] }
  | _ :: _, _, _ => .error .stray

/-- The loop at `empty:`, newest first: clear both colours, list and count what was not red. -/
def sweep {M : Type} (s : CsetFile K) (md5delta : K → M) :
    List Nat → Flags → List M → Flags × List M
  | [], flags, out => (flags, out)
  | d :: rest, flags, out =>
    let cleared : Flags :=
      { red := fun x => if x = d then false else flags.red x
        blue := fun x => if x = d then false else flags.blue x }
    if flags.red d then sweep s md5delta rest cleared out
    else sweep s md5delta rest cleared (out ++ [md5delta (s.key d)])

def finishPrune {M : Type} (s : CsetFile K) (md5delta : K → M) (flags : Flags)
    (remote : Remote K) : Pruned K M :=
  let swept := sweep s md5delta s.serials.reverse flags []
  { localOnly := swept.2.length
    remoteCsets := remote.csets
    remoteTags := remote.tags
    lkeys := swept.2
    rkeys := remote.rkeys
    flags := swept.1 }

def noFlags : Flags := { red := fun _ => false, blue := fun _ => false }

/-- `prunekey` with `SK_LKEY|SK_RKEY`. -/
def prunekey {M : Type} (s : CsetFile K) (md5delta : K → M) (istagkey skip : K → Bool)
    (input : List (Line K)) : Except Stop (Pruned K M) :=
  match input with
  | [] => .error (.rc (-1))
  | .noMatch :: _ => .error (.rc (-2))
  | .emptyTree :: _ => .ok (finishPrune s md5delta noFlags ⟨0,0,[]⟩)
  | .lodMatch :: rest => do
      let red ← colorMatches s (spanKeys rest).1 (fun _ => false)
      let flags : Flags := { red := red, blue := fun _ => false }
      let (flags, rest) ←
        match (spanKeys rest).2 with
        | .tagMatch :: rest => do
            let flags ← tagcolorMatches s (spanKeys rest).1 flags
            match (spanKeys rest).2 with
            | [] => .error (.exit 2)
            | _ :: rest => pure (flags, rest)
        | .endMatches :: rest => pure (flags, rest)
        | [] => .error (.rc (-3))
        | _ :: _ => .error (.exit 2)
      let (flags, remote) ← readRemote s istagkey skip rest flags ⟨0,0,[]⟩
      pure (finishPrune s md5delta flags remote)
  | _ :: _ => .error (.rc (-1))

end Listkey

end BitKeeper.SyncKeys
