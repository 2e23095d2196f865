/-
Filing the objects of the change list without breaking the order of the nodes.

A node that is not halved takes an object where it belongs.  A node that is halved takes those
that lie on its middle at its end, and its flag stays as it is: there the order of the node is
kept only if the objects come in order, and behind what is visible in the node.
-/
import Efl.Eina.Quadtree.Order

namespace Eina.QuadTree

open List

variable {Ω : Type} {item item' : Id → Item Ω} {id i : Id} {p path : Path} {t : Root}
  {q q' : QuadTree Ω} {cb : Callbacks Ω} {direction : Bool} {size : Rectangle} {objects : List Id}
  {S : Id → Prop}

/-! ### Where objects come in order -/

/-- The way an object takes ends at the node at a path, and this node is halved further. -/
def settles (cb : Callbacks Ω) (o : Ω) : Bool → Path → Rectangle → Bool
  | direction, [], size =>
    decide (4 < middle direction size) && decide (cb.classify direction size o = .both)
  | direction, right :: p, size =>
    decide (4 < middle direction size) &&
      decide (cb.classify direction size o = if right then .right else .left) &&
        settles cb o (!direction) p (half direction right size)

/-- The node at a path. -/
def Root.sub : Path → Root → Root
  | [], t => t
  | false :: p, t => sub p t.left
  | true :: p, t => sub p t.right

/-- The objects that come into the node at a path, in the order they come. -/
def arriving (cb : Callbacks Ω) (item : Id → Item Ω) (direction : Bool) (size : Rectangle)
    (objects : List Id) (p : Path) : List Id :=
  objects.filter fun i => (item i).visible && !(item i).deleteMe &&
    settles cb (item i).object direction p size

/--
Into every node that is halved and flagged as sorted, the objects come in the order of their
indices, and none before a visible item that stands there.
-/
def Files (cb : Callbacks Ω) (item : Id → Item Ω) (direction : Bool) (size : Rectangle)
    (root : Root) (objects : List Id) : Prop :=
  ∀ p, (root.sub p).sorted = true → Ascending item (arriving cb item direction size objects p) ∧
    ∀ a ∈ (root.sub p).both, (item a).visible = true →
      ∀ b ∈ arriving cb item direction size objects p, (item a).index ≤ (item b).index

theorem arriving_side (h : Kept S q q') (right : Bool) (hmiddle : 4 < middle direction size) :
    arriving cb q'.item (!direction) (half direction right size)
        (objects.filter
          (Goes (some (cb.classify direction size)) (if right then .right else .left) q)) p =
      arriving cb q.item direction size objects (right :: p) := by
  unfold arriving
  rw [filter_filter]
  refine filter_congr fun i _ => ?_
  rw [h.visible, h.deleteMe, h.object, settles, Goes, side, decide_eq_true hmiddle]
  cases (q.item i).visible with
  | false => simp
  | true =>
    cases (q.item i).deleteMe with
    | true => simp
    | false => simp [Bool.and_comm]

theorem files_side (h : Kept S q q') (right : Bool) (hmiddle : 4 < middle direction size)
    (hfiles : Files cb q.item direction size t objects) :
    Files cb q'.item (!direction) (half direction right size) (t.sub [right])
      (objects.filter
        (Goes (some (cb.classify direction size)) (if right then .right else .left) q)) := by
  intro p hsorted
  rw [arriving_side h right hmiddle]
  have hsub : (t.sub [right]).sub p = t.sub (right :: p) := by
    cases right with
    | false => rfl
    | true => rfl
  rw [hsub] at hsorted ⊢
  obtain ⟨hcome, hstand⟩ := hfiles (right :: p) hsorted
  refine ⟨ascending_congr (fun i _ => h.place i) hcome, fun a ha hv b hb => ?_⟩
  rw [h.visible] at hv
  rw [h.place, h.place]
  exact hstand a ha hv b hb

theorem arriving_here (hmiddle : 4 < middle direction size) :
    arriving cb q.item direction size objects [] =
      objects.filter (Goes (some (cb.classify direction size)) .both q) := by
  refine filter_congr fun i _ => ?_
  rw [settles, Goes, side, decide_eq_true hmiddle, Bool.true_and]

/-! ### One node -/

theorem tidy_kept (h : Kept S q q') (ht : Tidy q.item direction size t) :
    Tidy q'.item direction size t := by
  refine tidy_congr (fun i _ _ => h.place i) (fun i _ _ hv => ?_) ht
  rwa [h.visible] at hv

theorem splitItem_both (classify : Option (Ω → Direction)) (path : Path) (sorted : Bool)
    (s : Split Ω) (id : Id) : ∃ item' : Id → Item Ω, (∀ i, (item' i).index = (s.q.item i).index) ∧
      (splitItem classify path sorted s id).both =
        if Goes classify .both s.q id = true then
          if classify.isNone && sorted then sortedInsert item' s.both id else s.both ++ [id]
        else s.both := by
  obtain ⟨q, both, left, right⟩ := s
  unfold splitItem
  have h1 : Kept (fun i => i = id) q (q.modify id fun i => { i with change := false }) :=
    kept_modify fun x => ⟨rfl, rfl, rfl, rfl⟩
  generalize (q.modify id fun i => { i with change := false }) = q1 at h1 ⊢
  by_cases hvisible : (q.item id).visible = true
  · rw [if_neg (by rw [h1.visible]; simpa using hvisible)]
    generalize hq2 : (if (q1.item id).hidden = true then
      { q1 with hidden := q1.hidden.erase id }.modify id fun i => { i with hidden := false }
      else q1) = q2
    have h2 : ∀ i, (q2.item i).index = (q.item i).index ∧
        (q2.item i).deleteMe = (q.item i).deleteMe ∧ (q2.item i).object = (q.item i).object := by
      intro i
      rw [← hq2, ← h1.place, ← h1.deleteMe, ← h1.object]
      split
      · have hkept : Kept (fun i => i = id) { q1 with hidden := q1.hidden.erase id }
            ({ q1 with hidden := q1.hidden.erase id }.modify id fun i =>
              { i with hidden := false }) := kept_modify fun x => ⟨rfl, rfl, rfl, rfl⟩
        exact ⟨hkept.place i, hkept.deleteMe i, hkept.object i⟩
      · exact ⟨rfl, rfl, rfl⟩
    refine ⟨q2.item, fun i => (h2 i).1, ?_⟩
    by_cases hdelete : (q.item id).deleteMe = true
    · rw [if_pos (by rw [(h2 id).2.1]; exact hdelete), if_neg (by simp [Goes, hdelete])]
    rw [if_neg (by rw [(h2 id).2.1]; exact hdelete)]
    have hgoes : Goes classify .both q id = decide (side classify (q.item id).object = .both) := by
      simp [Goes, hvisible, hdelete]
    rw [hgoes]
    cases classify with
    | none => simp [side]
    | some classify =>
      rw [(h2 id).2.2]
      cases hside : classify (q.item id).object with
      | left => simp [side, hside]
      | right => simp [side, hside]
      | both => simp [side, hside]
  · rw [if_pos (by rw [h1.visible]; simpa using hvisible)]
    refine ⟨q.item, fun _ => rfl, ?_⟩
    have hgoes : ¬Goes classify .both q id = true := by simp [Goes, hvisible]
    split
    · rfl
    · rfl

theorem split_both (classify : Ω → Direction) (path : Path) (sorted : Bool) :
    ∀ (objects : List Id) (s : Split Ω), objects.Nodup →
      (∀ i ∈ objects, (s.q.item i).deleteMe = true → (s.q.item i).root = none) →
      (objects.foldl (splitItem (some classify) path sorted) s).both =
        s.both ++ objects.filter (Goes (some classify) .both s.q) := by
  intro objects
  induction objects with
  | nil =>
    intro s _ _
    exact (append_nil _).symm
  | cons id objects ih =>
    intro s hnodup hdel
    rw [nodup_cons] at hnodup
    have hkept := (splitItem_spec (some classify) path sorted s (hdel id mem_cons_self)).1
    obtain ⟨item', -, hboth⟩ := splitItem_both (some classify) path sorted s id
    have hgoes : Goes (some classify) .both (splitItem (some classify) path sorted s id).q =
        Goes (some classify) .both s.q := funext fun i => hkept.goes (some classify) .both i
    rw [foldl_cons, ih _ hnodup.2, hboth, hgoes]
    · by_cases hgo : Goes (some classify) .both s.q id = true
      · rw [if_pos hgo, filter_cons_of_pos hgo]
        simp
      · rw [if_neg hgo, filter_cons_of_neg hgo]
    · intro i hi
      rw [hkept.other]
      · exact hdel i (mem_cons_of_mem _ hi)
      · rintro rfl
        exact hnodup.1 hi

theorem split_ascending (path : Path) :
    ∀ (objects : List Id) (s : Split Ω), objects.Nodup →
      (∀ i ∈ objects, (s.q.item i).deleteMe = true → (s.q.item i).root = none) →
      Ascending s.q.item s.both →
        Ascending s.q.item (objects.foldl (splitItem none path true) s).both := by
  intro objects
  induction objects with
  | nil =>
    intro s _ _ hboth
    exact hboth
  | cons id objects ih =>
    intro s hnodup hdel hboth
    rw [nodup_cons] at hnodup
    have hkept := (splitItem_spec none path true s (hdel id mem_cons_self)).1
    obtain ⟨item', hindex, heq⟩ := splitItem_both none path true s id
    have hnext : Ascending s.q.item (splitItem none path true s id).both := by
      rw [heq]
      split
      · refine ascending_congr (fun i _ => (hindex i).symm) (ascending_sortedInsert ?_ id)
        exact ascending_congr (fun i _ => hindex i) hboth
      · exact hboth
    refine ascending_congr (fun i _ => (hkept.place i).symm) (ih _ hnodup.2 ?_ ?_)
    · intro i hi
      rw [hkept.other]
      · exact hdel i (mem_cons_of_mem _ hi)
      · rintro rfl
        exact hnodup.1 hi
    · exact ascending_congr (fun i _ => hkept.place i) hnext

/-! ### The whole update -/

theorem ascending_joined {classify : Ω → Direction} {both : List Id}
    (hle : ¬middle direction size ≤ 4)
    (hknown : Ascending q.item (known q.item direction size both))
    (hcome : Ascending q.item (objects.filter (Goes (some classify) .both q)))
    (hstand : ∀ a ∈ both, (q.item a).visible = true →
      ∀ b ∈ objects.filter (Goes (some classify) .both q), (q.item a).index ≤ (q.item b).index) :
    Ascending q.item (known q.item direction size
      (both ++ objects.filter (Goes (some classify) .both q))) := by
  unfold known at hknown ⊢
  rw [if_neg hle] at hknown ⊢
  rw [filter_append]
  refine pairwise_append.mpr ⟨hknown, hcome.filter _, ?_⟩
  intro a ha b hb
  obtain ⟨ha, hv⟩ := mem_filter.mp ha
  exact hstand a ha hv b (mem_of_mem_filter hb)

/-- **An update keeps the flags right**, where the objects come in order. -/
theorem tidy_update (cb : Callbacks Ω) : ∀ (n : Nat) (q : QuadTree Ω) (path : Path) (root : Root)
    (objects : List Id) (direction : Bool) (size : Rectangle), size.w.toNat + size.h.toNat < n →
    Comes q root objects →
    Files cb q.item direction size root objects → Tidy q.item direction size root →
    Tidy (update cb q path root objects direction size).1.item direction size
      (update cb q path root objects direction size).2 := by
  intro n
  induction n with
  | zero =>
    intro q path root objects direction size hn
    exact absurd hn (by omega)
  | succ n ih =>
    intro q path root objects direction size hn h hfiles htidy
    obtain ⟨hboth, htl, htr⟩ := htidy.parts
    rw [update]
    split
    · exact htidy
    split
    · -- objects are put where they belong
      rename_i hle
      have hkept := (split_spec none path root.sorted objects ⟨q, root.both, [], []⟩ h.nodup
        h.gone).1
      refine ⟨fun hsorted => ?_, tidy_kept hkept htl, tidy_kept hkept htr⟩
      have hknown := hboth hsorted
      unfold known at hknown ⊢
      rw [if_pos hle] at hknown ⊢
      refine ascending_congr (fun i _ => hkept.place i) ?_
      rw [hsorted]
      exact split_ascending path objects ⟨q, root.both, [], []⟩ h.nodup h.gone hknown
    · rename_i hle
      have hmiddle := not_le.mp hle
      have hsmall (right : Bool) : (half direction right size).w.toNat +
          (half direction right size).h.toNat < n :=
        lt_of_lt_of_le (half_smaller hmiddle) (Nat.lt_succ_iff.mp hn)
      obtain ⟨hkept, -, -, hl, hr, -⟩ :=
        split_spec (some (cb.classify direction size)) path root.sorted objects
          ⟨q, root.both, [], []⟩ h.nodup h.gone
      have hs := split_both (cb.classify direction size) path root.sorted objects
        ⟨q, root.both, [], []⟩ h.nodup h.gone
      generalize objects.foldl (splitItem (some (cb.classify direction size)) path root.sorted)
        ⟨q, root.both, [], []⟩ = s at hkept hl hr hs ⊢
      dsimp only at hkept hl hr hs ⊢
      -- the left half
      have hcomel : Comes s.q root.left s.left := by
        rw [hl]
        exact h.side hkept cb direction false size
      have hleft := ih s.q (path ++ [false]) root.left s.left (!direction) _ (hsmall false) hcomel
        (by rw [hl]; exact files_side hkept false hmiddle hfiles) (tidy_kept hkept htl)
      have hkeptl := (update_spec (fun _ => size) cb n s.q (path ++ [false]) root.left s.left
        (!direction) _ (hsmall false) hcomel).kept
      generalize update cb s.q (path ++ [false]) root.left s.left (!direction)
        (half direction false size) = rl at hleft hkeptl ⊢
      obtain ⟨q1, left⟩ := rl
      -- the right half
      have hkept1 : Kept (fun i => i ∈ objects ∨ i ∈ s.left) q q1 := by
        refine hkept.trans hkeptl fun i _ hi => ?_
        rw [hl] at hi
        exact (goes_true.mp (mem_filter.mp hi).2).2.1
      have hcomer : Comes q1 root.right s.right := by
        rw [hr]
        exact h.side hkept1 cb direction true size
      have hright := ih q1 (path ++ [true]) root.right s.right (!direction) _ (hsmall true) hcomer
        (by rw [hr]; exact files_side hkept1 true hmiddle hfiles) (tidy_kept hkept1 htr)
      have hkeptr := (update_spec (fun _ => size) cb n q1 (path ++ [true]) root.right s.right
        (!direction) _ (hsmall true) hcomer).kept
      refine ⟨fun hsorted => ?_, tidy_kept hkeptr hleft, hright⟩
      have hknown := hboth hsorted
      obtain ⟨hcome, hstand⟩ := hfiles [] hsorted
      rw [arriving_here hmiddle] at hcome hstand
      rw [hs]
      refine known_congr (fun i _ => (hkeptr.place i).trans (hkept1.place i)) (fun i _ hv => ?_)
        (ascending_joined hle hknown hcome hstand)
      rwa [hkeptr.visible, hkept1.visible] at hv

end Eina.QuadTree
