import BitKeeper.Lib.Frontier
import BitKeeper.Libdiff.Model

/-!
The split point of `dsplit1`. The two scans keep the furthest points of two searches from opposite
corners; where they meet or give up, the point lies in the box and off both corners.
-/

namespace BitKeeper.Libdiff

open Function
open Frontier

section
variable (same : Int → Int → Bool)

theorem slideDown_spec (x2 y2 : Int) (n : Nat) (x y : Int) :
    x ≤ slideDown same x2 y2 n x y ∧ (x ≤ x2 → slideDown same x2 y2 n x y ≤ x2) ∧
      (y ≤ y2 → slideDown same x2 y2 n x y - x + y ≤ y2) := by
  induction n generalizing x y with
  | zero =>
    unfold slideDown
    omega
  | succ n ih =>
    have slid := ih (x + 1) (y + 1)
    unfold slideDown
    split <;> omega

private theorem slideDown_edge {x2 y2 x y : Int} (edge : x2 ≤ x ∨ y2 ≤ y) (n : Nat) :
    slideDown same x2 y2 n x y = x := by
  cases n with
  | zero => rfl
  | succ n =>
    unfold slideDown
    rw [if_neg (by omega)]

private theorem slideDown_corner {x2 y2 : Int} (corner : same x2 y2 = false) (n : Nat) {x y : Int}
    (diagonal : x - y = x2 - y2) (before : x < x2) : slideDown same x2 y2 n x y < x2 := by
  induction n generalizing x y with
  | zero => exact before
  | succ n ih =>
    unfold slideDown
    split
    next slides =>
      apply ih (by omega)
      by_contra reached
      have xEnd : x + 1 = x2 := by omega
      have yEnd : y + 1 = y2 := by omega
      rw [xEnd,yEnd,corner] at slides
      cases slides.2.2
    next => exact before

variable (b : Box)

def forward (corner : same b.x2 b.y2 = false) : Slide b where
  along k x := slideDown same b.x2 b.y2 (b.x2 - x).toNat x (x - k)
  ge k x := (slideDown_spec same b.x2 b.y2 _ x (x - k)).1
  right k x := (slideDown_spec same b.x2 b.y2 _ x (x - k)).2.1
  bottom k x within := by
    have bound := (slideDown_spec same b.x2 b.y2 (b.x2 - x).toNat x (x - k)).2.2 within
    omega
  stays k x edge := slideDown_edge same edge _
  corner x before := slideDown_corner same corner _ (by unfold Box.kr; omega) before

def reflect (x y : Int) : Bool := same (b.x1 + b.x2 + 1 - x) (b.y1 + b.y2 + 1 - y)

private theorem slideUp_reflect (n : Nat) (x y : Int) :
    slideUp same b.x1 b.y1 n x y =
      b.x1 + b.x2 - slideDown (reflect same b) b.x2 b.y2 n (b.x1 + b.x2 - x) (b.y1 + b.y2 - y) := by
  induction n generalizing x y with
  | zero =>
    unfold slideUp slideDown
    omega
  | succ n ih =>
    have point : reflect same b (b.x1 + b.x2 - x + 1) (b.y1 + b.y2 - y + 1) = same x y := by
      unfold reflect
      congr 1 <;> omega
    unfold slideUp slideDown
    rw [ih,point]
    split
    next slides =>
      rw [if_pos ⟨by omega,by omega,slides.2.2⟩]
      congr 2 <;> omega
    next slides =>
      rw [if_neg (fun within => slides ⟨by omega,by omega,within.2.2⟩)]
      omega

def Diags.mirror (s : Diags) : Diags where
  kfmin := b.mirror s.krmax
  kfmax := b.mirror s.krmin
  krmin := b.mirror s.kfmax
  krmax := b.mirror s.kfmin
  vf := fun k => b.x1 + b.x2 - s.vr (b.mirror k)
  vr := fun k => b.x1 + b.x2 - s.vf (b.mirror k)

theorem Diags.mirror_mirror (s : Diags) : (s.mirror b).mirror b = s := by
  unfold Diags.mirror
  simp only [Frontier.mirror_mirror,sub_sub_cancel]

private theorem mirror_update (v : Int → Int) (k x : Int) :
    (fun j => b.x1 + b.x2 - update v k x (b.mirror j)) =
      update (fun j => b.x1 + b.x2 - v (b.mirror j)) (b.mirror k) (b.x1 + b.x2 - x) := by
  funext j
  by_cases at_ : j = b.mirror k
  · rw [at_,update_self,Frontier.mirror_mirror,update_self]
  · have other : b.mirror j ≠ k := by
      intro same
      rw [← same,Frontier.mirror_mirror] at at_
      exact at_ rfl
    rw [update_of_ne at_,update_of_ne other]

theorem scanReverse_mirror (odd : Bool) (n : Nat) (k : Int) (s : Diags) :
    scanReverse same b.x1 b.y1 odd n k s =
      let found := scanForward (reflect same b) b.x2 b.y2 (!odd) n (b.mirror k) (s.mirror b)
      (found.1.map (fun p => (b.x1 + b.x2 - p.1, b.y1 + b.y2 - p.2)), found.2.mirror b) := by
  induction n generalizing k s with
  | zero =>
    unfold scanReverse scanForward
    dsimp only
    rw [Diags.mirror_mirror]
    rfl
  | succ n ih =>
    have mirror : b.mirror k = b.kf + b.kr - k := rfl
    have kfmax : (s.mirror b).kfmax = b.kf + b.kr - s.krmin := rfl
    unfold scanReverse scanForward
    by_cases more : s.krmin ≤ k
    · have more' : b.mirror k ≤ (s.mirror b).kfmax := by omega
      rw [if_pos more,if_pos more']
      have below : (s.mirror b).vf (b.mirror k - 1) = b.x1 + b.x2 - s.vr (k + 1) := by
        change b.x1 + b.x2 - s.vr (b.kf + b.kr - (b.kf + b.kr - k - 1)) = _
        congr 2
        omega
      have above : (s.mirror b).vf (b.mirror k + 1) = b.x1 + b.x2 - s.vr (k - 1) := by
        change b.x1 + b.x2 - s.vr (b.kf + b.kr - (b.kf + b.kr - k + 1)) = _
        congr 2
        omega
      have start : (if b.x1 + b.x2 - s.vr (k + 1) < b.x1 + b.x2 - s.vr (k - 1) then
        b.x1 + b.x2 - s.vr (k - 1)
            else b.x1 + b.x2 - s.vr (k + 1) + 1) =
          b.x1 + b.x2 - if s.vr (k - 1) < s.vr (k + 1) then s.vr (k - 1) else s.vr (k + 1) - 1 := by
        split <;> split <;> omega
      dsimp only
      rw [below,above,start]
      generalize (if s.vr (k - 1) < s.vr (k + 1) then s.vr (k - 1) else s.vr (k + 1) - 1) = from_
      have slid := slideUp_reflect same b (from_ - b.x1).toNat from_ (from_ - k)
      have far : b.y1 + b.y2 - (from_ - k) = b.x1 + b.x2 - from_ - b.mirror k := by
        unfold Box.mirror Box.kf Box.kr
        omega
      rw [far] at slid
      rw [slid,show b.x2 - (b.x1 + b.x2 - from_) = from_ - b.x1 by omega]
      generalize slideDown (reflect same b) b.x2 b.y2 (from_ - b.x1).toNat (b.x1 + b.x2 - from_)
        (b.x1 + b.x2 - from_ - b.mirror k) = x
      have updated : { s.mirror b with vf := update (s.mirror b).vf (b.mirror k) x } =
          ({ s with vr := update s.vr k (b.x1 + b.x2 - x) } : Diags).mirror b := by
        unfold Diags.mirror
        rw [mirror_update,sub_sub_cancel]
      have meets : ((!odd) = true ∧ (s.mirror b).krmin ≤ b.mirror k ∧
        b.mirror k ≤ (s.mirror b).krmax ∧
            (s.mirror b).vr (b.mirror k) ≤ x) ↔
          ¬ odd = true ∧ s.kfmin ≤ k ∧ k ≤ s.kfmax ∧ b.x1 + b.x2 - x ≤ s.vf k := by
        have krmin : (s.mirror b).krmin = b.kf + b.kr - s.kfmax := rfl
        have krmax : (s.mirror b).krmax = b.kf + b.kr - s.kfmin := rfl
        have vr : (s.mirror b).vr (b.mirror k) = b.x1 + b.x2 - s.vf k := by
          change b.x1 + b.x2 - s.vf (b.mirror (b.mirror k)) = _
          rw [Frontier.mirror_mirror]
        rw [Bool.not_eq_true,Bool.not_eq_true',vr]
        apply and_congr_right
        intro _
        omega
      rw [updated]
      split
      next met =>
        rw [if_pos (meets.mpr met)]
        rw [Diags.mirror_mirror]
        congr 3
        omega
      next met =>
        rw [if_neg (fun far => met (meets.mp far)), ih]
        have next : b.mirror (k - 2) = b.mirror k + 2 := by
          unfold Box.mirror
          omega
        rw [next]
    · have done : ¬ b.mirror k ≤ (s.mirror b).kfmax := by omega
      rw [if_neg more,if_neg done]
      dsimp only
      rw [Diags.mirror_mirror]
      rfl

end

section
variable {b : Box}

structure Near (f : Slide b) (d : Nat) (lo hi : Int) (v : Int → Int) : Prop where
  span : Span b d lo hi
  points : ∀ k, Reached b d k → v k = front f d k

structure Widened (f : Slide b) (d : Nat) (lo hi : Int) (v : Int → Int) : Prop where
  span : Span b (d + 1) lo hi
  points : ∀ k, lo - 1 ≤ k → k ≤ hi + 1 → (k - b.kf - d) % 2 = 0 → v k = front f d k

variable {d : Nat} {lo : Int}

theorem Near.widened {f : Slide b} {hi : Int} {v w : Int → Int} (near : Near f d lo hi v)
    (low : b.kmin < lo → w (lo - 2) = b.x1 - 1) (high : hi < b.kmax → w (hi + 2) = b.x1 - 1)
    (kept : ∀ k, lo ≤ k → k ≤ hi → w k = v k) :
    Widened f d (if b.kmin < lo then lo - 1 else lo + 1)
    (if hi < b.kmax then hi + 1 else hi - 1) w := by
  refine ⟨near.span.succ,?_⟩
  intro k first last even
  have lowEven := near.span.lowest.even
  have highEven := near.span.highest.even
  by_cases below : k < lo
  · have outside : ¬ Reached b d k := fun reached =>
      absurd (near.span.bounds reached).1 (not_le.mpr below)
    have inner : b.kmin < lo := by
      by_contra edge
      rw [if_neg edge] at first
      omega
    rw [if_pos inner] at first
    have place : k = lo - 2 := by omega
    rw [front_outside f outside,place,low inner]
  · by_cases above : hi < k
    · have outside : ¬ Reached b d k := fun reached =>
        absurd (near.span.bounds reached).2 (not_le.mpr above)
      have inner : hi < b.kmax := by
        by_contra edge
        rw [if_neg edge] at last
        omega
      rw [if_pos inner] at last
      have place : k = hi + 2 := by omega
      rw [front_outside f outside,place,high inner]
    · rw [kept k (not_lt.mp below) (not_lt.mp above)]
      exact near.points k (near.span.reached (not_lt.mp below) (not_lt.mp above) even)

theorem widenForward_eq (x1 kmin kmax : Int) (s : Diags) :
    widenForward x1 kmin kmax s = { s with
        kfmin := if kmin < s.kfmin then s.kfmin - 1 else s.kfmin + 1
        kfmax := if s.kfmax < kmax then s.kfmax + 1 else s.kfmax - 1
        vf := fun k =>
          if s.kfmax < kmax ∧ k = s.kfmax + 2 ∨ kmin < s.kfmin ∧ k = s.kfmin - 2 then x1 - 1 else
            s.vf k } := by
  unfold widenForward
  by_cases low : kmin < s.kfmin <;> by_cases high : s.kfmax < kmax <;>
    simp only [gt_iff_lt,low,high,if_true,if_false,true_and,false_and,or_false,false_or] <;>
    congr 1 <;> funext k
  all_goals simp only [update_apply]
  all_goals grind

theorem widenReverse_eq (x2 kmin kmax : Int) (s : Diags) :
    widenReverse x2 kmin kmax s = { s with
        krmin := if kmin < s.krmin then s.krmin - 1 else s.krmin + 1
        krmax := if s.krmax < kmax then s.krmax + 1 else s.krmax - 1
        vr := fun k =>
          if s.krmax < kmax ∧ k = s.krmax + 2 ∨ kmin < s.krmin ∧ k = s.krmin - 2 then x2 + 1 else
            s.vr k } := by
  unfold widenReverse
  by_cases low : kmin < s.krmin <;> by_cases high : s.krmax < kmax <;>
    simp only [gt_iff_lt,low,high,if_true,if_false,true_and,false_and,or_false,false_or] <;>
    congr 1 <;> funext k
  all_goals simp only [update_apply]
  all_goals grind

variable {s : Diags}

theorem widenForward_widened {f : Slide b} (near : Near f d s.kfmin s.kfmax s.vf) :
    let t := widenForward b.x1 b.kmin b.kmax s
    Widened f d t.kfmin t.kfmax t.vf := by
  rw [widenForward_eq]
  apply near.widened
  · intro inner
    exact if_pos (.inr ⟨inner,rfl⟩)
  · intro inner
    exact if_pos (.inl ⟨inner,rfl⟩)
  · intro k low high
    exact if_neg (by omega)

theorem widenReverse_mirror (s : Diags) :
    (widenReverse b.x2 b.kmin b.kmax s).mirror b = widenForward b.x1 b.kmin b.kmax (s.mirror b) := by
  have edges : b.kmin + b.kmax = b.kf + b.kr := by
    unfold Box.kmin Box.kmax Box.kf Box.kr
    omega
  rw [widenReverse_eq,widenForward_eq]
  unfold Diags.mirror Box.mirror
  dsimp only
  congr 1
  · split <;> split <;> omega
  · split <;> split <;> omega
  · funext k
    split <;> split <;> omega

def Hit (odd : Bool) (s : Diags) (k x : Int) : Prop :=
  odd = true ∧ s.krmin ≤ k ∧ k ≤ s.krmax ∧ s.vr k ≤ x

theorem scanForward_spec {same : Int → Int → Bool} (corner : same b.x2 b.y2 = false) {f : Slide b}
    (is : f = forward same b corner) (odd : Bool) (n : Nat) (k : Int)
    (s : Diags) (span : Span b (d + 1) lo s.kfmax) (enough : s.kfmax < k + n) (low : lo ≤ k)
    (even : (k - b.kf - (d + 1)) % 2 = 0)
    (older : ∀ j, lo - 1 ≤ j → j ≤ s.kfmax + 1 → (j - b.kf - d) % 2 = 0 → s.vf j = front f d j)
    (done : ∀ j, Reached b (d + 1) j → j < k → s.vf j = front f (d + 1) j)
    (apart : ∀ j, Reached b (d + 1) j → j < k → ¬ Hit odd s j (front f (d + 1) j)) :
    (∃ v, scanForward same b.x2 b.y2 odd n k s = (none, { s with vf := v }) ∧
        ∀ j, Reached b (d + 1) j → v j = front f (d + 1) j ∧
          ¬ Hit odd s j (front f (d + 1) j)) ∨
      ∃ j t, scanForward same b.x2 b.y2 odd n k s =
          (some (front f (d + 1) j, front f (d + 1) j - j), t) ∧
        Reached b (d + 1) j ∧ Hit odd s j (front f (d + 1) j) := by
  induction n generalizing k s with
  | zero =>
    left
    refine ⟨s.vf,rfl,?_⟩
    intro j reached
    have last := (span.bounds reached).2
    exact ⟨done j reached (by omega),apart j reached (by omega)⟩
  | succ n ih =>
    unfold scanForward
    split
    next more =>
      have reached : Reached b (d + 1) k := span.reached low more (by push_cast; omega)
      have start : (if s.vf (k - 1) < s.vf (k + 1) then s.vf (k + 1) else s.vf (k - 1) + 1) =
          max (front f d (k - 1) + 1) (front f d (k + 1)) := by
        rw [older (k - 1) (by omega) (by omega) (by omega),
          older (k + 1) (by omega) (by omega) (by omega)]
        split <;> omega
      have point : slideDown same b.x2 b.y2
          (b.x2 - if s.vf (k - 1) < s.vf (k + 1) then s.vf (k + 1) else s.vf (k - 1) + 1).toNat
          (if s.vf (k - 1) < s.vf (k + 1) then s.vf (k + 1) else s.vf (k - 1) + 1)
          ((if s.vf (k - 1) < s.vf (k + 1) then s.vf (k + 1) else s.vf (k - 1) + 1) - k) =
          front f (d + 1) k := by
        rw [front_succ _ reached,start,is]
        rfl
      dsimp only
      rw [point]
      split
      next met => exact .inr ⟨k,_,rfl,reached,met⟩
      next past =>
        apply ih (k + 2) { s with vf := update s.vf k (front f (d + 1) k) } span
        · dsimp only
          push_cast at enough
          omega
        · omega
        · omega
        · intro j first last parity
          dsimp only at last ⊢
          rw [update_of_ne (by omega)]
          exact older j first last parity
        · intro j other before
          dsimp only
          by_cases at_ : j = k
          · rw [at_,update_self]
          · rw [update_of_ne at_]
            have parity := other.even
            push_cast at parity
            exact done j other (by omega)
        · intro j other before
          by_cases at_ : j = k
          · rwa [at_]
          · have parity := other.even
            push_cast at parity
            exact apart j other (by omega)
    next stop =>
      left
      refine ⟨s.vf,rfl,?_⟩
      intro j reached
      have last := (span.bounds reached).2
      exact ⟨done j reached (by omega),apart j reached (by omega)⟩

theorem scanForward_round {same : Int → Int → Bool} (corner : same b.x2 b.y2 = false) {f : Slide b}
    (is : f = forward same b corner) (odd : Bool)
    (widened : Widened f d s.kfmin s.kfmax s.vf) :
    (∃ v, scanForward same b.x2 b.y2 odd (s.kfmax - s.kfmin + 1).toNat s.kfmin s =
      (none, { s with vf := v }) ∧
        Near f (d + 1) s.kfmin s.kfmax v ∧
        ∀ j, Reached b (d + 1) j → ¬ Hit odd s j (front f (d + 1) j)) ∨
      ∃ j t, scanForward same b.x2 b.y2 odd (s.kfmax - s.kfmin + 1).toNat s.kfmin s =
          (some (front f (d + 1) j, front f (d + 1) j - j), t) ∧
        Reached b (d + 1) j ∧ Hit odd s j (front f (d + 1) j) := by
  have first (j : Int) (reached : Reached b (d + 1) j) := (widened.span.bounds reached).1
  have even := widened.span.lowest.even
  push_cast at even
  rcases scanForward_spec corner is odd (s.kfmax - s.kfmin + 1).toNat s.kfmin s widened.span
    (by omega) (le_refl _)
    even widened.points (fun j reached before => absurd (first j reached) (not_le.mpr before))
    (fun j reached before => absurd (first j reached) (not_le.mpr before)) with apart | met
  · obtain ⟨v,scanned,points⟩ := apart
    exact .inl ⟨v,scanned,⟨widened.span,fun j reached => (points j reached).1⟩,
      fun j reached => (points j reached).2⟩
  · exact .inr met

variable {e : Nat} {k : Int}

theorem Hit.iff {r : Slide b} {x : Int}
    (far : Near r e (s.mirror b).kfmin (s.mirror b).kfmax (s.mirror b).vf)
    (even : (b.mirror k - b.kf - e) % 2 = 0) :
    Hit true s k x ↔ Reached b e (b.mirror k) ∧ back r e k ≤ x := by
  have value : s.vr k = b.x1 + b.x2 - (s.mirror b).vf (b.mirror k) := by
    change s.vr k = b.x1 + b.x2 - (b.x1 + b.x2 - s.vr (b.mirror (b.mirror k)))
    rw [Frontier.mirror_mirror,sub_sub_cancel]
  have order (i j : Int) : b.mirror i ≤ b.mirror j ↔ j ≤ i := by
    unfold Box.mirror
    omega
  constructor
  · intro hit
    have reached : Reached b e (b.mirror k) :=
      far.span.reached ((order _ _).mpr hit.2.2.1) ((order _ _).mpr hit.2.1) even
    have le := hit.2.2.2
    rw [value,far.points _ reached] at le
    exact ⟨reached,le⟩
  · rintro ⟨reached,le⟩
    have bounds := far.span.bounds reached
    refine ⟨rfl,(order _ _).mp bounds.2,(order _ _).mp bounds.1,?_⟩
    rwa [value,far.points _ reached]

theorem not_meets {f r : Slide b}
    (far : Near r e (s.mirror b).kfmin (s.mirror b).kfmax (s.mirror b).vf)
    (none : ∀ j, Reached b d j → ¬ Hit true s j (front f d j)) : ¬ Meets f r d e := by
  rintro ⟨k,near,reached,le⟩
  exact none k near ((Hit.iff far reached.even).mpr ⟨reached,le⟩)

theorem Hit.reached {r : Slide b} {x : Int}
    (far : Near r e (s.mirror b).kfmin (s.mirror b).kfmax (s.mirror b).vf) (near : Reached b d k)
    (parity : (b.steps - d - e) % 2 = 0) (hit : Hit true s k x) : Reached b e (b.mirror k) := by
  have even : (b.mirror k - b.kf - e) % 2 = 0 := by
    have nearEven := near.even
    unfold Box.mirror Box.kf Box.kr at *
    unfold Box.steps at parity
    omega
  exact ((Hit.iff far even).mp hit).1

def Good (b : Box) (best : Int × Int) : Prop := Inner b (best.2, best.1 - best.2)

theorem good_of_inner {p : Int × Int} (inner : Inner b p) : Good b (p.1 + p.2, p.1) := by
  unfold Good
  rwa [add_sub_cancel_left]

theorem bestForward_good {vf : Int → Int} (lo : Int) {hi : Int} (origin : 0 ≤ b.x1 ∧ 0 ≤ b.y1)
    (inner : ∀ k, lo ≤ k → k ≤ hi → (k - lo) % 2 = 0 → Inner b (b.clip k (vf k))) (n : Nat) (k : Int)
    (best : Int × Int) (low : lo ≤ k) (even : (k - lo) % 2 = 0)
    (start : Good b best ∨ best.1 = -1 ∧ k ≤ hi ∧ 0 < n) :
    Good b (bestForward b.x2 b.y2 vf hi n k best) := by
  induction n generalizing k best with
  | zero =>
    rcases start with good | fresh
    · exact good
    · omega
  | succ n ih =>
    unfold bestForward
    split
    next more =>
      have point := inner k low more even
      have column : (if b.y2 < min (vf k) b.x2 - k then b.y2 + k else min (vf k) b.x2) =
          (b.clip k (vf k)).1 := by
        unfold Box.clip
        split <;> rfl
      have row : (if b.y2 < min (vf k) b.x2 - k then b.y2 else min (vf k) b.x2 - k) =
          (b.clip k (vf k)).2 := by
        unfold Box.clip
        split <;> rfl
      rw [column,row]
      apply ih (k + 2) _ (by omega) (by omega)
      left
      split
      · exact good_of_inner point
      · rcases start with good | fresh
        · exact good
        · have wide := point.wide
          have tall := point.tall
          omega
    next stop =>
      rcases start with good | fresh
      · exact good
      · exact absurd fresh.2.1 stop

theorem clip_mirror (k v : Int) :
    (if max b.x1 v - k < b.y1 then b.y1 + k else max b.x1 v) =
        b.x1 + b.x2 - (b.clip (b.mirror k) (b.x1 + b.x2 - v)).1 ∧
      (if max b.x1 v - k < b.y1 then b.y1 else max b.x1 v - k) =
        b.y1 + b.y2 - (b.clip (b.mirror k) (b.x1 + b.x2 - v)).2 := by
  unfold Box.clip Box.mirror Box.kf Box.kr
  constructor <;> split <;> split <;> dsimp only <;> omega

theorem bestReverse_good {vr : Int → Int} (hi : Int)
    (inner : ∀ k, lo ≤ k → k ≤ hi → (hi - k) % 2 = 0 →
      Inner b (b.clip (b.mirror k) (b.x1 + b.x2 - vr k))) (n : Nat)
    (k : Int) (best : Option (Int × Int)) (high : k ≤ hi) (even : (hi - k) % 2 = 0)
    (start : (∃ p, best = some p ∧ Good b p) ∨ best = none ∧ lo ≤ k ∧ 0 < n) :
    ∃ p, bestReverse b.x1 b.y1 vr lo n k best = some p ∧ Good b p := by
  induction n generalizing k best with
  | zero =>
    rcases start with good | fresh
    · exact good
    · omega
  | succ n ih =>
    unfold bestReverse
    split
    next more =>
      have point := (inner k more high even).mirror
      rw [(clip_mirror k (vr k)).1,(clip_mirror k (vr k)).2]
      apply ih (k - 2) _ (by omega) (by omega)
      left
      rcases start with good | fresh
      · obtain ⟨p,rfl,good⟩ := good
        dsimp only
        split
        · exact ⟨_,rfl,good_of_inner point⟩
        · exact ⟨_,rfl,good⟩
      · rw [fresh.1]
        exact ⟨_,rfl,good_of_inner point⟩
    next stop =>
      rcases start with good | fresh
      · exact good
      · exact absurd fresh.2.1 stop

private theorem bestSplit_inner {f r : Slide b} (origin : 0 ≤ b.x1 ∧ 0 ≤ b.y1)
    (near : Near f (d + 1) s.kfmin s.kfmax s.vf)
    (far : Near r (d + 1) (s.mirror b).kfmin (s.mirror b).kfmax (s.mirror b).vf)
    (before : Reached b (d + 1) b.kr → front f (d + 1) b.kr < b.x2)
    (behind : Reached b (d + 1) b.kr → front r (d + 1) b.kr < b.x2) :
    ∃ p, bestSplit b.x1 b.x2 b.y1 b.y2 s = .ok p ∧ Inner b p := by
  have ordered := (near.span.bounds near.span.highest).1
  have forwardEven := near.span.lowest.even
  have forwardGood : Good b
      (bestForward b.x2 b.y2 s.vf s.kfmax (s.kfmax - s.kfmin + 1).toNat s.kfmin (-1, -1)) := by
    apply bestForward_good s.kfmin origin _ _ _ _ (le_refl _) (by omega) (.inr ⟨rfl,ordered,by omega⟩)
    intro k low high even
    have reached := near.span.reached low high (by omega)
    rw [near.points k reached]
    apply clip_inner reached
    intro last
    rw [last] at reached ⊢
    exact before reached
  have lowest : (s.mirror b).kfmin = b.mirror s.krmax := rfl
  have highest : (s.mirror b).kfmax = b.mirror s.krmin := rfl
  have farOrdered := (far.span.bounds far.span.highest).1
  have reverseEven := far.span.lowest.even
  rw [lowest,highest] at farOrdered
  have mirror (k : Int) : b.mirror k = b.kf + b.kr - k := rfl
  have reverseGood : ∃ p, bestReverse b.x1 b.y1 s.vr s.krmin (s.krmax - s.krmin + 1).toNat s.krmax
    none = some p ∧
      Good b p := by
    have krOrdered : s.krmin ≤ s.krmax := by
      rw [mirror,mirror] at farOrdered
      omega
    apply bestReverse_good s.krmax _ _ _ _ (le_refl _) (by omega) (.inr ⟨rfl,krOrdered,by omega⟩)
    intro k low high even
    have value : b.x1 + b.x2 - s.vr k = (s.mirror b).vf (b.mirror k) := by
      change _ = b.x1 + b.x2 - s.vr (b.mirror (b.mirror k))
      rw [Frontier.mirror_mirror]
    have reached : Reached b (d + 1) (b.mirror k) := by
      rw [lowest,mirror] at reverseEven
      apply far.span.reached
      · rw [lowest,mirror,mirror]
        omega
      · rw [highest,mirror,mirror]
        omega
      · rw [mirror]
        omega
    rw [value,far.points _ reached]
    apply clip_inner reached
    intro last
    rw [last] at reached ⊢
    exact behind reached
  unfold bestSplit
  obtain ⟨p,found,good⟩ := reverseGood
  have column := forwardGood.wide.1
  rw [if_neg (by omega),found]
  dsimp only
  split
  · exact ⟨_,rfl,forwardGood⟩
  · exact ⟨_,rfl,good⟩

def Apart (f r : Slide b) : Bool → Nat → Prop
  | false, d => ¬ Meets f r d d
  | true, 0 => True
  | true, d + 1 => ¬ Meets f r (d + 1) d

structure Round (f r : Slide b) (odd : Bool) (d : Nat) (s : Diags) : Prop where
  near : Near f d s.kfmin s.kfmax s.vf
  far : Near r d (s.mirror b).kfmin (s.mirror b).kfmax (s.mirror b).vf
  apart : Apart f r odd d

variable {f r : Slide b} {odd : Bool}

def Parity (b : Box) (odd : Bool) : Prop := b.steps % 2 = if odd then 1 else 0

theorem Apart.rounds (parity : Parity b odd) (apart : Apart f r odd d) : 2 * (d : Int) ≤ b.steps := by
  have wide := b.wide
  have tall := b.tall
  have steps : b.steps = b.x2 - b.x1 + (b.y2 - b.y1) := rfl
  by_contra enough
  unfold Parity at parity
  cases odd with
  | false =>
    rw [if_neg Bool.false_ne_true] at parity
    exact apart (meets_of_steps (by omega) (by omega))
  | true =>
    rw [if_pos rfl] at parity
    cases d with
    | zero => omega
    | succ d =>
      push_cast at enough
      exact apart (meets_of_steps (by push_cast; omega) (by push_cast; omega))

theorem Apart.zero : Apart f r odd 0 := by
  cases odd with
  | true => trivial
  | false =>
    rintro ⟨k,near,far,le⟩
    have wide := b.wide
    have first := reached_zero.mp near
    have last := reached_zero.mp far
    unfold back front at le
    rw [if_pos first,if_pos last] at le
    omega

theorem Round.forward_inner (round : Round f r true d s) (parity : Parity b true)
    (near : Reached b (d + 1) k) (hit : Hit true s k (front f (d + 1) k)) :
    Inner b (front f (d + 1) k, front f (d + 1) k - k) := by
  have odd : b.steps % 2 = 1 := parity
  cases d with
  | zero =>
    have first := front_one f near
    exact front_inner_of_le near ⟨first.1,first.2.1⟩ first.2.2
  | succ d => exact front_inner round.apart near (hit.reached round.far near (by push_cast; omega))

theorem Apart.before (parity : Parity b odd) (apart : Apart f r odd (d + 1))
    (reached : Reached b (d + 1) b.kr) :
    front f (d + 1) b.kr < b.x2 ∧ front r (d + 1) b.kr < b.x2 := by
  have even := reached.even
  obtain ⟨kf,kr,kmin,kmax⟩ := b.edges
  have steps : b.steps = b.x2 - b.x1 + (b.y2 - b.y1) := rfl
  unfold Parity at parity
  push_cast at even
  cases odd with
  | false =>
    rw [if_neg Bool.false_ne_true] at parity
    have apart' : ¬ Meets r f (d + 1) (d + 1) := fun meets => apart (meets_symm r f meets)
    exact ⟨front_before apart (by omega) reached,front_before apart' (by omega) reached⟩
  | true =>
    rw [if_pos rfl] at parity
    have apart' : ¬ Meets r f d (d + 1) := fun meets => apart (meets_symm r f meets)
    exact ⟨front_before apart (by push_cast; omega) reached,front_corner apart' (by omega) reached⟩

variable {same : Int → Int → Bool}

theorem scanReverse_round (odd : Bool) (s : Diags) :
    scanReverse same b.x1 b.y1 odd (s.krmax - s.krmin + 1).toNat s.krmax s =
      let t := s.mirror b
      let found :=
        scanForward (reflect same b) b.x2 b.y2 (!odd) (t.kfmax - t.kfmin + 1).toNat t.kfmin t
      (found.1.map (fun p => (b.x1 + b.x2 - p.1, b.y1 + b.y2 - p.2)), found.2.mirror b) := by
  have size : (s.krmax - s.krmin + 1).toNat = ((s.mirror b).kfmax - (s.mirror b).kfmin + 1).toNat :=
      by
    change _ = (b.mirror s.krmin - b.mirror s.krmax + 1).toNat
    unfold Box.mirror
    congr 1
    omega
  rw [scanReverse_mirror,size]
  rfl

structure Half (f r : Slide b) (odd : Bool) (d : Nat) (s : Diags) : Prop where
  near : Near f (d + 1) s.kfmin s.kfmax s.vf
  far : Near r d (s.mirror b).kfmin (s.mirror b).kfmax (s.mirror b).vf
  apart : if odd then ¬ Meets f r (d + 1) d else ¬ Meets f r d d

theorem Round.scanForward (last : same b.x2 b.y2 = false) (parity : Parity b odd)
    (round : Round (forward same b last) r odd d s) :
    let t := widenForward b.x1 b.kmin b.kmax s
    ∃ found u, Libdiff.scanForward same b.x2 b.y2 odd (t.kfmax - t.kfmin + 1).toNat t.kfmin t =
      (found, u) ∧
      match found with
      | some p => Inner b p
      | none => Half (forward same b last) r odd d u := by
  have widened := widenForward_widened round.near
  have far : Near r d ((widenForward b.x1 b.kmin b.kmax s).mirror b).kfmin
      ((widenForward b.x1 b.kmin b.kmax s).mirror b).kfmax
        ((widenForward b.x1 b.kmin b.kmax s).mirror b).vf := by
    rw [widenForward_eq]
    exact round.far
  have hits (k x : Int) : Hit odd (widenForward b.x1 b.kmin b.kmax s) k x ↔ Hit odd s k x := by
    rw [widenForward_eq]
    exact Iff.rfl
  rcases scanForward_round last rfl odd widened with missed | met
  · obtain ⟨v,scanned,near,none⟩ := missed
    refine ⟨_,_,scanned,near,far,?_⟩
    cases odd with
    | false => exact round.apart
    | true => exact not_meets far none
  · obtain ⟨k,u,scanned,reached,hit⟩ := met
    refine ⟨_,_,scanned,?_⟩
    have isOdd := hit.1
    subst isOdd
    exact round.forward_inner parity reached ((hits _ _).mp hit)

theorem Half.scanReverse (first : reflect same b b.x2 b.y2 = false) (parity : Parity b odd)
    (half : Half f (forward (reflect same b) b first) odd d s) :
    let t := widenReverse b.x2 b.kmin b.kmax s
    ∃ found u, Libdiff.scanReverse same b.x1 b.y1 odd (t.krmax - t.krmin + 1).toNat t.krmax t =
      (found, u) ∧
      match found with
      | some p => Inner b p
      | none => Round f (forward (reflect same b) b first) odd (d + 1) u := by
  have widened := widenForward_widened half.far
  rw [← widenReverse_mirror] at widened
  generalize made : widenReverse b.x2 b.kmin b.kmax s = t at widened
  have near : Near f (d + 1) t.kfmin t.kfmax t.vf := by
    rw [← made,widenReverse_eq]
    exact half.near
  have nearFar : Near f (d + 1) ((t.mirror b).mirror b).kfmin ((t.mirror b).mirror b).kfmax
      ((t.mirror b).mirror b).vf := by
    rwa [Diags.mirror_mirror]
  dsimp only
  rw [scanReverse_round]
  dsimp only
  rcases scanForward_round first rfl (!odd) widened with missed | met
  · obtain ⟨v,scanned,far,none⟩ := missed
    rw [scanned]
    refine ⟨_,_,rfl,nearFar,?_,?_⟩
    · rwa [Diags.mirror_mirror]
    · cases odd with
      | true => exact half.apart
      | false => exact fun meets => not_meets nearFar none (meets_symm _ _ meets)
  · obtain ⟨k,u,scanned,reached,hit⟩ := met
    rw [scanned]
    refine ⟨_,_,rfl,?_⟩
    cases odd with
    | true => cases hit.1
    | false =>
      have even : b.steps % 2 = 0 := parity
      have apart : ¬ Meets (forward (reflect same b) b first) f d d :=
        fun meets => half.apart (meets_symm _ _ meets)
      have far := hit.reached nearFar reached (by omega)
      exact (front_inner apart reached far).mirror

theorem splitLoop_spec (first : reflect same b b.x2 b.y2 = false) (last : same b.x2 b.y2 = false)
    (origin : 0 ≤ b.x1 ∧ 0 ≤ b.y1) (parity : Parity b odd) (minimal : Bool) (max_steps fuel d : Nat)
    (s : Diags) (round : Round (forward same b last) (forward (reflect same b) b first) odd d s)
    (enough : b.steps < fuel + d) :
    ∃ p t, splitLoop same b.x1 b.x2 b.y1 b.y2 minimal max_steps odd b.kmin b.kmax fuel (d + 1) s =
      .ok (p, t) ∧
      Inner b p := by
  induction fuel generalizing d s with
  | zero =>
    have bound := round.apart.rounds parity
    omega
  | succ fuel ih =>
    obtain ⟨found,u,scanned,outcome⟩ := round.scanForward last parity
    unfold splitLoop
    dsimp only at scanned ⊢
    rw [scanned]
    cases found with
    | some p => exact ⟨p,u,rfl,outcome⟩
    | none =>
      obtain ⟨found,t,scanned,outcome⟩ := outcome.scanReverse first parity
      rw [scanned]
      cases found with
      | some p => exact ⟨p,t,rfl,outcome⟩
      | none =>
        dsimp only
        split
        · exact ih (d + 1) t outcome (by push_cast at enough ⊢; omega)
        · have before := fun reached => outcome.apart.before parity reached
          obtain ⟨p,split,inner⟩ := bestSplit_inner origin outcome.near outcome.far
            (fun reached => (before reached).1) (fun reached => (before reached).2)
          rw [split]
          exact ⟨p,t,rfl,inner⟩

variable (same) in
theorem dsplit1_spec (first : same (b.x1 + 1) (b.y1 + 1) = false) (last : same b.x2 b.y2 = false)
    (origin : 0 ≤ b.x1 ∧ 0 ≤ b.y1) (minimal : Bool) (max_steps : Nat) (vf vr : Int → Int) :
    ∃ p t, dsplit1 same b.x1 b.x2 b.y1 b.y2 minimal max_steps vf vr = .ok (p, t) ∧ Inner b p := by
  have first' : reflect same b b.x2 b.y2 = false := by
    rw [← first]
    unfold reflect
    congr 1 <;> omega
  have steps : b.steps = b.x2 - b.x1 + (b.y2 - b.y1) := rfl
  have parity : Parity b (decide ((b.x2 - b.y2 - (b.x1 - b.y1)) % 2 ≠ 0)) := by
    unfold Parity
    by_cases odd : (b.x2 - b.y2 - (b.x1 - b.y1)) % 2 = 0
    · rw [if_neg (by simp [odd])]
      omega
    · rw [if_pos (by simp [odd])]
      omega
  have corner : b.mirror b.kr = b.kf := by
    unfold Box.mirror
    omega
  apply splitLoop_spec first' last origin parity minimal max_steps _ 0
  · refine ⟨⟨Span.zero,?_⟩,⟨?_,?_⟩,Apart.zero⟩
    · intro k reached
      rw [reached_zero.mp reached]
      unfold front
      rw [if_pos rfl]
      exact update_self ..
    · change Span b 0 (b.mirror b.kr) (b.mirror b.kr)
      rw [corner]
      exact Span.zero
    · intro k reached
      rw [reached_zero.mp reached]
      unfold front
      rw [if_pos rfl]
      change b.x1 + b.x2 - update vr b.kr b.x2 (b.mirror b.kf) = b.x1
      rw [← corner,Frontier.mirror_mirror,update_self]
      omega
  · push_cast
    omega

end

end BitKeeper.Libdiff
