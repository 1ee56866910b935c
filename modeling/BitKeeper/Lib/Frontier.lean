import Mathlib

/-!
Furthest reaching points on the diagonals of a box: along a diagonal a point slides for free, a step
goes to a neighbouring diagonal. A search from the opposite corner is the same search read backwards.
-/

namespace BitKeeper.Frontier

structure Box where
  x1 : Int
  x2 : Int
  y1 : Int
  y2 : Int
  wide : x1 < x2
  tall : y1 < y2

variable (b : Box)

def Box.kf : Int := b.x1 - b.y1

def Box.kr : Int := b.x2 - b.y2

def Box.kmin : Int := b.x1 - b.y2

def Box.kmax : Int := b.x2 - b.y1

theorem Box.edges :
    b.kf = b.x1 - b.y1 ∧ b.kr = b.x2 - b.y2 ∧ b.kmin = b.x1 - b.y2 ∧ b.kmax = b.x2 - b.y1 :=
  ⟨rfl,rfl,rfl,rfl⟩

def Box.steps : Int := b.x2 - b.x1 + (b.y2 - b.y1)

def Box.mirror (k : Int) : Int := b.kf + b.kr - k

structure Reached (d : Nat) (k : Int) : Prop where
  low : b.kf - d ≤ k
  high : k ≤ b.kf + d
  inside : b.kmin ≤ k ∧ k ≤ b.kmax
  even : (k - b.kf - d) % 2 = 0

instance (d : Nat) (k : Int) : Decidable (Reached b d k) :=
  decidable_of_iff ((b.kf - d ≤ k ∧ k ≤ b.kf + d) ∧ (b.kmin ≤ k ∧ k ≤ b.kmax) ∧
    (k - b.kf - d) % 2 = 0)
    ⟨fun all => ⟨all.1.1,all.1.2,all.2.1,all.2.2⟩,
      fun all => ⟨⟨all.low,all.high⟩,all.inside,all.even⟩⟩

/-- How far a point slides: it stays in the box, and does not slide into the far corner. -/
structure Slide where
  along : Int → Int → Int
  ge : ∀ k x, x ≤ along k x
  right : ∀ k x, x ≤ b.x2 → along k x ≤ b.x2
  bottom : ∀ k x, x - k ≤ b.y2 → along k x - k ≤ b.y2
  stays : ∀ k x, b.x2 ≤ x ∨ b.y2 ≤ x - k → along k x = x
  corner : ∀ x, x < b.x2 → along b.kr x < b.x2

variable {b} (s : Slide b)

def front : Nat → Int → Int
  | 0, k => if k = b.kf then b.x1 else b.x1 - 1
  | d + 1, k =>
    if Reached b (d + 1) k then s.along k (max (front d (k - 1) + 1) (front d (k + 1))) else b.x1 - 1

variable {k : Int}

theorem reached_zero : Reached b 0 k ↔ k = b.kf := by
  have wide := b.wide
  have tall := b.tall
  constructor
  · intro reached
    have low := reached.low
    have high := reached.high
    omega
  · intro same
    subst same
    refine ⟨by omega,by omega,⟨?_,?_⟩,by omega⟩
    · unfold Box.kmin Box.kf
      omega
    · unfold Box.kmax Box.kf
      omega

variable {d : Nat}

theorem front_outside (outside : ¬ Reached b d k) : front s d k = b.x1 - 1 := by
  cases d with
  | zero =>
    unfold front
    rw [if_neg (fun same => outside (reached_zero.mpr same))]
  | succ d =>
    unfold front
    rw [if_neg outside]

section
variable (reached : Reached b (d + 1) k)
include reached

theorem front_succ :
    front s (d + 1) k = s.along k (max (front s d (k - 1) + 1) (front s d (k + 1))) := by
  rw [front,if_pos reached]

theorem front_ge_right : front s d (k - 1) + 1 ≤ front s (d + 1) k := by
  rw [front_succ s reached]
  exact le_trans (le_max_left _ _) (s.ge _ _)

theorem front_ge_down : front s d (k + 1) ≤ front s (d + 1) k := by
  rw [front_succ s reached]
  exact le_trans (le_max_right _ _) (s.ge _ _)

theorem Reached.neighbour : Reached b d (k - 1) ∨ Reached b d (k + 1) := by
  have wide := b.wide
  have tall := b.tall
  obtain ⟨low,high,inside,even⟩ := reached
  unfold Box.kmin Box.kmax at inside
  push_cast at low high even
  by_cases left : k ≤ b.kf
  · refine .inr ⟨by omega,by unfold Box.kf at *; omega,?_,by omega⟩
    unfold Box.kmin Box.kmax
    unfold Box.kf at left
    omega
  · refine .inl ⟨by omega,by omega,?_,by omega⟩
    unfold Box.kmin Box.kmax
    unfold Box.kf at left
    omega

end

theorem front_lower (reached : Reached b d k) : 2 * b.x1 + d + k - b.kf ≤ 2 * front s d k := by
  induction d generalizing k with
  | zero =>
    have same := reached_zero.mp reached
    unfold front
    rw [if_pos same,same]
    push_cast
    omega
  | succ d ih =>
    have right := front_ge_right s reached
    have down := front_ge_down s reached
    push_cast
    rcases reached.neighbour with before | after
    · have bound := ih before
      omega
    · have bound := ih after
      omega

theorem front_ge (reached : Reached b d k) : b.x1 ≤ front s d k := by
  have bound := front_lower s reached
  have low := reached.low
  omega

theorem front_top (reached : Reached b d k) : b.y1 ≤ front s d k - k := by
  have bound := front_lower s reached
  have high := reached.high
  unfold Box.kf at bound high
  omega

theorem reached_of_ge (ge : b.x1 ≤ front s d k) : Reached b d k := by
  by_contra outside
  rw [front_outside s outside] at ge
  omega

private theorem front_right (reached : Reached b (d + 1) k) (inner : b.kmin < k)
    (out : b.x2 < front s (d + 1) k) : Reached b d (k - 1) ∧ b.x2 ≤ front s d (k - 1) := by
  have wide := b.wide
  induction d generalizing k with
  | zero =>
    -- one step from the corner stays in the box
    rw [front_succ s reached] at out
    have start : max (front s 0 (k - 1) + 1) (front s 0 (k + 1)) ≤ b.x2 := by
      unfold front
      split <;> split <;> omega
    have bound := s.right k _ start
    omega
  | succ d ih =>
    have start : b.x2 < max (front s (d + 1) (k - 1) + 1) (front s (d + 1) (k + 1)) := by
      by_contra inside
      have bound := s.right k _ (not_lt.mp inside)
      rw [front_succ s reached] at out
      omega
    rcases lt_max_iff.mp start with right | down
    · have edge : b.x2 ≤ front s (d + 1) (k - 1) := by omega
      exact ⟨reached_of_ge s (by omega),edge⟩
    have above : Reached b (d + 1) (k + 1) := reached_of_ge s (by omega)
    obtain ⟨before,edge⟩ := ih above (by omega) down
    rw [add_sub_cancel_right] at before edge
    have next : Reached b (d + 1) (k - 1) := by
      have inside := reached.inside
      refine ⟨?_,?_,by omega,?_⟩
      · have low := before.low
        push_cast
        omega
      · have high := before.high
        push_cast
        omega
      · have even := before.even
        push_cast
        omega
    have moved := front_ge_down s next
    rw [sub_add_cancel] at moved
    exact ⟨next,le_trans edge moved⟩

private theorem front_bottom (reached : Reached b (d + 1) k) (inner : k < b.kmax)
    (out : b.y2 < front s (d + 1) k - k) :
    Reached b d (k + 1) ∧ b.y2 ≤ front s d (k + 1) - (k + 1) := by
  have tall := b.tall
  have inside := reached.inside
  have kmin : b.kmin = b.x1 - b.y2 := rfl
  have below : b.y2 < max (front s d (k - 1) + 1) (front s d (k + 1)) - k := by
    by_contra within
    have bound := s.bottom k _ (not_lt.mp within)
    rw [front_succ s reached] at out
    omega
  induction d generalizing k with
  | zero =>
    exfalso
    have low := reached.low
    have high := reached.high
    have even := reached.even
    push_cast at low high even
    have corner : b.kf = b.x1 - b.y1 := rfl
    unfold front at below
    split at below <;> split at below <;> omega
  | succ d ih =>
    have start : b.y2 + k < max (front s (d + 1) (k - 1) + 1) (front s (d + 1) (k + 1)) := by omega
    rcases lt_max_iff.mp start with right | down
    · have before : Reached b (d + 1) (k - 1) := by
        by_contra outside
        rw [front_outside s outside] at right
        omega
      have outBefore : b.y2 < front s (d + 1) (k - 1) - (k - 1) := by omega
      have belowBefore : b.y2 < max (front s d (k - 1 - 1) + 1) (front s d (k - 1 + 1)) - (k - 1) :=
          by
        by_contra within
        have bound := s.bottom (k - 1) _ (not_lt.mp within)
        rw [front_succ s before] at outBefore
        omega
      obtain ⟨earlier,edge⟩ := ih before (by omega) outBefore before.inside belowBefore
      rw [sub_add_cancel] at earlier edge
      have next : Reached b (d + 1) (k + 1) := by
        refine ⟨?_,?_,by omega,?_⟩
        · have low := earlier.low
          push_cast
          omega
        · have high := earlier.high
          push_cast
          omega
        · have even := earlier.even
          push_cast
          omega
      have moved := front_ge_right s next
      rw [add_sub_cancel_right] at moved
      exact ⟨next,by omega⟩
    · exact ⟨reached_of_ge s (by omega),by omega⟩

theorem front_one (reached : Reached b 1 k) :
    front s 1 k ≤ b.x2 ∧ front s 1 k - k ≤ b.y2 ∧ (k = b.kr → front s 1 k < b.x2) := by
  have wide := b.wide
  have tall := b.tall
  obtain ⟨kf,kr,kmin,kmax⟩ := b.edges
  have side : k = b.kf - 1 ∨ k = b.kf + 1 := by
    have low := reached.low
    have high := reached.high
    have even := reached.even
    push_cast at low high even
    omega
  have start : max (front s 0 (k - 1) + 1) (front s 0 (k + 1)) = if k = b.kf + 1 then b.x1 + 1 else
      b.x1 := by
    unfold front
    split <;> split <;> split <;> omega
  have right : max (front s 0 (k - 1) + 1) (front s 0 (k + 1)) ≤ b.x2 := by
    rw [start]
    split <;> omega
  have bottom : max (front s 0 (k - 1) + 1) (front s 0 (k + 1)) - k ≤ b.y2 := by
    rw [start]
    split <;> omega
  rw [front_succ s reached]
  refine ⟨s.right k _ right,s.bottom k _ bottom,?_⟩
  intro corner
  rw [corner]
  apply s.corner
  rw [← corner,start]
  split <;> omega

structure Span (b : Box) (d : Nat) (lo hi : Int) : Prop where
  lowest : Reached b d lo
  highest : Reached b d hi
  first : lo = b.kf - d ∨ lo = b.kmin ∨ lo = b.kmin + 1
  last : hi = b.kf + d ∨ hi = b.kmax ∨ hi = b.kmax - 1

theorem Span.zero : Span b 0 b.kf b.kf :=
  ⟨reached_zero.mpr rfl,reached_zero.mpr rfl,.inl (by omega),.inl (by omega)⟩

variable {lo hi : Int}

theorem Span.reached (span : Span b d lo hi) (low : lo ≤ k) (high : k ≤ hi)
    (even : (k - b.kf - d) % 2 = 0) : Reached b d k :=
  ⟨span.lowest.low.trans low,high.trans span.highest.high,
    ⟨span.lowest.inside.1.trans low,high.trans span.highest.inside.2⟩,even⟩

theorem Span.bounds (span : Span b d lo hi) (reached : Reached b d k) : lo ≤ k ∧ k ≤ hi := by
  obtain ⟨low,high,inside,even⟩ := reached
  have lowEven := span.lowest.even
  have highEven := span.highest.even
  constructor
  · rcases span.first with same | same | same <;> omega
  · rcases span.last with same | same | same <;> omega

theorem Span.succ (span : Span b d lo hi) :
    Span b (d + 1) (if b.kmin < lo then lo - 1 else lo + 1)
    (if hi < b.kmax then hi + 1 else hi - 1) := by
  obtain ⟨⟨low,high,inside,even⟩,⟨low',high',inside',even'⟩,first,last⟩ := span
  have wide := b.wide
  have tall := b.tall
  obtain ⟨kf,kr,kmin,kmax⟩ := b.edges
  refine ⟨⟨?_,?_,⟨?_,?_⟩,?_⟩,⟨?_,?_,⟨?_,?_⟩,?_⟩,?_,?_⟩ <;> push_cast <;> split <;> omega

variable (r : Slide b)

def back (e : Nat) (k : Int) : Int := b.x1 + b.x2 - front r e (b.mirror k)

def Meets (d e : Nat) : Prop :=
  ∃ k, Reached b d k ∧ Reached b e (b.mirror k) ∧ back r e k ≤ front s d k

theorem mirror_mirror (k : Int) : b.mirror (b.mirror k) = k := by
  unfold Box.mirror
  omega

variable {e : Nat}

theorem meets_symm (meets : Meets s r d e) : Meets r s e d := by
  obtain ⟨k,near,far,le⟩ := meets
  refine ⟨b.mirror k,far,by rw [mirror_mirror]; exact near,?_⟩
  unfold back at le ⊢
  rw [mirror_mirror]
  omega

theorem back_le (far : Reached b e (b.mirror k)) : back r e k ≤ b.x2 ∧ back r e k - k ≤ b.y2 := by
  have left := front_ge r far
  have top := front_top r far
  unfold back
  constructor
  · omega
  · unfold Box.mirror Box.kf Box.kr at top ⊢
    omega

variable {s r}

theorem meets_of_edge (near : Reached b d k) (far : Reached b e (b.mirror k))
    (edge : b.x2 ≤ front s d k ∨ b.y2 ≤ front s d k - k) : Meets s r d e := by
  obtain ⟨right,bottom⟩ := back_le r far
  refine ⟨k,near,far,?_⟩
  rcases edge with onRight | onBottom <;> omega

theorem reached_mirror {j : Int} (far : Reached b (e + 1) (b.mirror k)) (step : j = k - 1 ∨ j = k + 1)
    (inside : b.kmin ≤ j ∧ j ≤ b.kmax) (towards : b.kr - e ≤ j ∧ j ≤ b.kr + e) :
    Reached b e (b.mirror j) := by
  obtain ⟨low,high,inner,even⟩ := far
  push_cast at low high even
  unfold Box.mirror at low high inner even
  obtain ⟨kf,kr,kmin,kmax⟩ := b.edges
  have mirror : b.mirror j = b.kf + b.kr - j := rfl
  exact ⟨by omega,by omega,⟨by omega,by omega⟩,by omega⟩

private theorem front_in_box (apart : ¬ Meets s r d e) (near : Reached b (d + 1) k)
    (far : Reached b (e + 1) (b.mirror k)) :
    front s (d + 1) k ≤ b.x2 ∧ front s (d + 1) k - k ≤ b.y2 := by
  have wide := b.wide
  have tall := b.tall
  obtain ⟨kf,kr,kmin,kmax⟩ := b.edges
  have inside := near.inside
  have low := far.low
  have high := far.high
  have even := far.even
  unfold Box.mirror at low high even
  push_cast at low high even
  by_contra out
  rw [not_and_or,not_le,not_le] at out
  rcases lt_trichotomy k b.kr with below | same | above
  · obtain ⟨before,edge⟩ := front_bottom s near (by omega) (by omega)
    apply apart
    apply meets_of_edge before _ (.inr edge)
    exact reached_mirror far (.inr rfl) ⟨by omega,by omega⟩ ⟨by omega,by omega⟩
  · obtain ⟨before,edge⟩ := front_bottom s near (by omega) (by omega)
    apply apart
    apply meets_of_edge before _ (.inr edge)
    exact reached_mirror far (.inr rfl) ⟨by omega,by omega⟩ ⟨by omega,by omega⟩
  · obtain ⟨before,edge⟩ := front_right s near (by omega) (by omega)
    apply apart
    apply meets_of_edge before _ (.inl edge)
    exact reached_mirror far (.inl rfl) ⟨by omega,by omega⟩ ⟨by omega,by omega⟩

theorem front_corner (apart : ¬ Meets s r d e) (odd : e % 2 = 1) (near : Reached b (d + 1) b.kr) :
    front s (d + 1) b.kr < b.x2 := by
  have wide := b.wide
  have tall := b.tall
  obtain ⟨kf,kr,kmin,kmax⟩ := b.edges
  rw [front_succ s near]
  apply s.corner
  by_contra edge
  rcases le_max_iff.mp (not_lt.mp edge) with right | down
  · have before : Reached b d (b.kr - 1) := reached_of_ge s (by omega)
    apply apart
    apply meets_of_edge before _ (.inr (by omega))
    refine ⟨?_,?_,⟨?_,?_⟩,?_⟩ <;> unfold Box.mirror <;> omega
  · have before : Reached b d (b.kr + 1) := reached_of_ge s (by omega)
    apply apart
    apply meets_of_edge before _ (.inl down)
    refine ⟨?_,?_,⟨?_,?_⟩,?_⟩ <;> unfold Box.mirror <;> omega

theorem meets_of_steps (enough : b.steps ≤ d + e) (parity : (b.steps - d - e) % 2 = 0) :
    Meets s r d e := by
  have wide := b.wide
  have tall := b.tall
  obtain ⟨kf,kr,kmin,kmax⟩ := b.edges
  have steps : b.steps = b.x2 - b.x1 + (b.y2 - b.y1) := rfl
  have common : ∃ k, Reached b d k ∧ Reached b e (b.mirror k) := by
    have low : ∃ lo, b.kf - d ≤ lo ∧ b.kr - e ≤ lo ∧ b.kmin ≤ lo ∧
        (lo = b.kf - d ∨ lo = b.kr - e ∨ lo = b.kmin) :=
      ⟨max (max (b.kf - d) (b.kr - e)) b.kmin,by omega,by omega,by omega,by omega⟩
    obtain ⟨lo,left,up,first,one⟩ := low
    have pick : ∃ k, (k = lo ∨ k = lo + 1) ∧ (k - b.kf - d) % 2 = 0 := by
      by_cases even : (lo - b.kf - d) % 2 = 0
      · exact ⟨lo,.inl rfl,even⟩
      · exact ⟨lo + 1,.inr rfl,by omega⟩
    obtain ⟨k,step,even⟩ := pick
    have mirror : b.mirror k = b.kf + b.kr - k := rfl
    exact ⟨k,⟨by omega,by omega,⟨by omega,by omega⟩,even⟩,
      ⟨by omega,by omega,⟨by omega,by omega⟩,by omega⟩⟩
  obtain ⟨k,near,far⟩ := common
  refine ⟨k,near,far,?_⟩
  have below := front_lower s near
  have above := front_lower r far
  unfold back
  unfold Box.mirror at above ⊢
  omega

structure Inner (b : Box) (p : Int × Int) : Prop where
  wide : b.x1 ≤ p.1 ∧ p.1 ≤ b.x2
  tall : b.y1 ≤ p.2 ∧ p.2 ≤ b.y2
  notFirst : b.x1 + b.y1 < p.1 + p.2
  notLast : p.1 + p.2 < b.x2 + b.y2

theorem Inner.mirror {p : Int × Int} (inner : Inner b p) :
    Inner b (b.x1 + b.x2 - p.1, b.y1 + b.y2 - p.2) := by
  obtain ⟨wide,tall,notFirst,notLast⟩ := inner
  exact ⟨⟨by omega,by omega⟩,⟨by omega,by omega⟩,by omega,by omega⟩

theorem front_inner_of_le (near : Reached b (d + 1) k)
    (within : front s (d + 1) k ≤ b.x2 ∧ front s (d + 1) k - k ≤ b.y2)
    (corner : k = b.kr → front s (d + 1) k < b.x2) :
    Inner b (front s (d + 1) k, front s (d + 1) k - k) := by
  have left := front_ge s near
  have top := front_top s near
  have lower := front_lower s near
  obtain ⟨kf,kr,kmin,kmax⟩ := b.edges
  push_cast at lower
  refine ⟨⟨left,within.1⟩,⟨by omega,within.2⟩,by omega,?_⟩
  by_cases last : k = b.kr
  · omega
  · omega

theorem front_inner (apart : ¬ Meets s r d e) (near : Reached b (d + 1) k)
    (far : Reached b (e + 1) (b.mirror k)) : Inner b (front s (d + 1) k, front s (d + 1) k - k) :=
  by
  apply front_inner_of_le near (front_in_box apart near far)
  intro last
  rw [last] at near far ⊢
  have even := far.even
  unfold Box.mirror at even
  push_cast at even
  exact front_corner apart (by omega) near

theorem front_before (apart : ¬ Meets s r d e) (parity : (b.steps - d - e) % 2 = 0)
    (near : Reached b d b.kr) : front s d b.kr < b.x2 := by
  have wide := b.wide
  have tall := b.tall
  obtain ⟨kf,kr,kmin,kmax⟩ := b.edges
  have steps : b.steps = b.x2 - b.x1 + (b.y2 - b.y1) := rfl
  have even := near.even
  by_contra edge
  apply apart
  apply meets_of_edge near _ (.inl (not_lt.mp edge))
  have mirror : b.mirror b.kr = b.kf := by
    unfold Box.mirror
    omega
  rw [mirror]
  exact ⟨by omega,by omega,⟨by unfold Box.kmin; omega,by unfold Box.kmax; omega⟩,by omega⟩

def Box.clip (b : Box) (k x : Int) : Int × Int :=
  if b.y2 < min x b.x2 - k then (b.y2 + k, b.y2) else (min x b.x2, min x b.x2 - k)

theorem clip_inner (near : Reached b (d + 1) k) (corner : k = b.kr → front s (d + 1) k < b.x2) :
    Inner b (b.clip k (front s (d + 1) k)) := by
  have wide := b.wide
  have tall := b.tall
  have left := front_ge s near
  have top := front_top s near
  have lower := front_lower s near
  have inside := near.inside
  obtain ⟨kf,kr,kmin,kmax⟩ := b.edges
  push_cast at lower
  unfold Box.clip
  generalize front s (d + 1) k = x at *
  split
  · exact ⟨⟨by omega,by omega⟩,⟨by omega,by omega⟩,by omega,by omega⟩
  · exact ⟨⟨by omega,by omega⟩,⟨by omega,by omega⟩,by omega,by omega⟩

end BitKeeper.Frontier
