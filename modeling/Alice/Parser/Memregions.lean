import Alice.Parser.Trackers

/-! # Mapped regions

`remove_overlaps` is to put back what lies outside of a range.  It puts back
the part on the left; the test for the part on the right looks at the wrong
end of the region. -/

namespace Alice

namespace Memregion

def Holds (region : Memregion) (address : ℕ) : Prop :=
  region.addrStart ≤ address ∧ address ≤ region.addrEnd

/-- The place in the file that an address of the region is mapped to. -/
def fileOffset (region : Memregion) (address : ℕ) : ℕ :=
  region.offset + (address - region.addrStart)

def Apart (first second : Memregion) : Prop :=
  ∀ address, first.Holds address → ¬ second.Holds address

instance : Std.Symm Apart where
  symm _ _ apart address second first := apart address first second

/-- The part of a region in front of an address. -/
def before (region : Memregion) (address : ℕ) : Memregion :=
  { region with addrEnd := address - 1 }

end Memregion

namespace MemregionTracker

/-- The address is mapped to this place of this file. -/
def Maps (tracker : MemregionTracker) (address : ℕ) (inode : Inode) (offset : ℕ) : Prop :=
  ∃ region ∈ tracker.regions, region.Holds address ∧ region.inode = inode ∧
    region.fileOffset address = offset

/-- The regions have different keys and share no address. -/
structure WellFormed (tracker : MemregionTracker) : Prop where
  starts : (tracker.regions.map Memregion.addrStart).Nodup
  disjoint : tracker.regions.Pairwise Memregion.Apart

section

variable {tracker after : MemregionTracker} {region found other : Memregion}
  {addrStart addrEnd : ℕ}

theorem WellFormed.eq_of_addrStart (wellFormed : tracker.WellFormed)
    (member : region ∈ tracker.regions) (otherMember : other ∈ tracker.regions)
    (same : region.addrStart = other.addrStart) : region = other :=
  List.inj_on_of_nodup_map wellFormed.starts member otherMember same

variable {address : ℕ}

theorem WellFormed.eq_of_holds (wellFormed : tracker.WellFormed)
    (member : region ∈ tracker.regions) (otherMember : other ∈ tracker.regions)
    (holds : region.Holds address) (otherHolds : other.Holds address) : region = other := by
  by_contra different
  exact wellFormed.disjoint.forall member otherMember different address holds otherHolds

/-! ## The overlap test -/

theorem overlaps_of_holds (holds : region.Holds address)
    (inRange : addrStart ≤ address ∧ address ≤ addrEnd) :
    overlaps addrStart addrEnd region = true := by
  obtain ⟨afterStart, beforeEnd⟩ := holds
  simp only [overlaps, Bool.or_eq_true, Bool.and_eq_true, decide_eq_true_eq]
  omega

theorem overlaps_iff_of_nonempty (range : addrStart ≤ addrEnd)
    (nonempty : region.addrStart ≤ region.addrEnd) : overlaps addrStart addrEnd region = true ↔
      region.addrStart ≤ addrEnd ∧ addrStart ≤ region.addrEnd := by
  simp only [overlaps, Bool.or_eq_true, Bool.and_eq_true, decide_eq_true_eq]
  omega

/-- A region that the test finds by its end only: it starts behind the
range, and so it is empty. -/
def endsInside (addrStart addrEnd : ℕ) (region : Memregion) : Prop :=
  addrStart ≤ region.addrEnd ∧ region.addrEnd ≤ addrEnd ∧ addrEnd < region.addrStart

theorem overlaps_of_endsInside (inside : endsInside addrStart addrEnd region) :
    overlaps addrStart addrEnd region = true := by
  obtain ⟨afterStart, beforeEnd, _⟩ := inside
  simp only [overlaps, Bool.or_eq_true, Bool.and_eq_true, decide_eq_true_eq]
  omega

theorem endsInside_of_overlaps (range : addrStart ≤ addrEnd)
    (found : overlaps addrStart addrEnd region = true) (behind : addrEnd < region.addrStart) :
    endsInside addrStart addrEnd region := by
  simp only [overlaps, Bool.or_eq_true, Bool.and_eq_true, decide_eq_true_eq] at found
  unfold endsInside
  omega

theorem le_addrEnd_of_overlaps (range : addrStart ≤ addrEnd)
    (found : overlaps addrStart addrEnd region = true) (early : region.addrStart < addrStart)
    : addrStart ≤ region.addrEnd := by
  simp only [overlaps, Bool.or_eq_true, Bool.and_eq_true, decide_eq_true_eq] at found
  omega

theorem not_overlaps_before (range : addrStart ≤ addrEnd) (early : region.addrStart < addrStart) :
    ¬ overlaps addrStart addrEnd (region.before addrStart) = true := by
  simp only [overlaps, Bool.or_eq_true, Bool.and_eq_true, decide_eq_true_eq]
  simp only [Memregion.before]
  omega

/-! ## One round -/

def putBack (addrStart : ℕ) (wholeRegions : Bool) (found : Memregion) : List Memregion :=
  if wholeRegions = false ∧ found.addrStart < addrStart then
    [found.before addrStart]
  else
    []

theorem put_of_notMem (isNew : ∀ old ∈ tracker.regions, old.addrStart ≠ region.addrStart) :
    (tracker.put region).regions = tracker.regions ++ [region] := by
  have none : ¬ tracker.regions.any fun old =>
      old.addrStart = region.addrStart := by
    simpa using isNew
  rw [put, if_neg none]

theorem mem_put : region ∈ (tracker.put region).regions := by
  rw [put]
  split_ifs with old
  · obtain ⟨old, member, sameStart⟩ := List.any_eq_true.1 old
    exact List.mem_map.2 ⟨old, member, if_pos (of_decide_eq_true sameStart)⟩
  · exact List.mem_append_right _ (List.mem_singleton_self region)

theorem removeOne_regions (wholeRegions : Bool) (notBehind : found.addrStart ≤ addrEnd) :
    (tracker.removeOne addrStart addrEnd wholeRegions found).regions =
      (tracker.regions.filter fun old => old.addrStart ≠ found.addrStart) ++
        putBack addrStart wholeRegions found := by
  have isNew : ∀ old ∈ tracker.regions.filter (fun old => old.addrStart ≠ found.addrStart),
        old.addrStart ≠ (found.before addrStart).addrStart := by
    intro old member
    exact of_decide_eq_true (List.mem_filter.1 member).2
  cases wholeRegions with
  | true => simp [removeOne, putBack]
  | false =>
    simp only [removeOne, Bool.false_eq_true, if_false,
      if_neg (not_lt.2 notBehind), putBack, true_and]
    split_ifs with early
    · exact put_of_notMem isNew
    · rw [List.append_nil]

theorem mem_removeOne (wholeRegions : Bool) (notBehind : found.addrStart ≤ addrEnd) :
    region ∈ (tracker.removeOne addrStart addrEnd wholeRegions found).regions
      ↔ (region ∈ tracker.regions ∧ region.addrStart ≠ found.addrStart) ∨
        wholeRegions = false ∧ found.addrStart < addrStart ∧ region = found.before addrStart := by
  rw [removeOne_regions wholeRegions notBehind, List.mem_append,
    List.mem_filter, decide_eq_true_eq, putBack]
  split_ifs with early
  · simp [early]
  · simp only [List.not_mem_nil]
    tauto

theorem WellFormed.removeOne (wellFormed : tracker.WellFormed) (range : addrStart ≤ addrEnd)
    (wholeRegions : Bool) (member : found ∈ tracker.regions)
    (overlapping : overlaps addrStart addrEnd found = true)
    (notBehind : found.addrStart ≤ addrEnd) :
    (tracker.removeOne addrStart addrEnd wholeRegions found).WellFormed := by
  have isOther : ∀ old ∈ tracker.regions.filter (fun old => old.addrStart ≠ found.addrStart),
        old ∈ tracker.regions ∧ old.addrStart ≠ found.addrStart := by
    intro old member
    obtain ⟨member, other⟩ := List.mem_filter.1 member
    exact ⟨member, of_decide_eq_true other⟩
  have starts := wellFormed.starts.sublist ((List.filter_sublist (p := fun old : Memregion =>
      old.addrStart ≠ found.addrStart)).map Memregion.addrStart)
  have disjoint := wellFormed.disjoint.sublist (List.filter_sublist (p := fun old : Memregion =>
      old.addrStart ≠ found.addrStart))
  constructor <;> rw [removeOne_regions wholeRegions notBehind, putBack] <;>
    split_ifs with early
  · rw [List.map_append, List.nodup_append']
    refine ⟨starts, List.nodup_singleton _, ?_⟩
    simp only [List.map_cons, List.map_nil, List.disjoint_singleton,
      List.mem_map, not_exists, not_and]
    exact fun old member => (isOther old member).2
  · rwa [List.append_nil]
  · rw [List.pairwise_append]
    refine ⟨disjoint, List.pairwise_singleton _ _, ?_⟩
    intro old oldMember piece pieceMember address holds pieceHolds
    obtain rfl := List.mem_singleton.1 pieceMember
    have last := le_addrEnd_of_overlaps range overlapping early.2
    have foundHolds : found.Holds address := by
      obtain ⟨afterStart, beforeEnd⟩ := pieceHolds
      simp only [Memregion.before] at afterStart beforeEnd
      exact ⟨afterStart, by omega⟩
    obtain ⟨oldMember, different⟩ := isOther old oldMember
    exact different (congrArg Memregion.addrStart
      (wellFormed.eq_of_holds oldMember member holds foundHolds))
  · rwa [List.append_nil]

/-! ## The whole loop -/

def NoneEndsInside (addrStart addrEnd : ℕ) (tracker : MemregionTracker) : Prop :=
  ∀ region ∈ tracker.regions, ¬ endsInside addrStart addrEnd region

theorem NoneEndsInside.addrStart_le (none : tracker.NoneEndsInside addrStart addrEnd)
    (range : addrStart ≤ addrEnd) (member : found ∈ tracker.regions)
    (overlapping : overlaps addrStart addrEnd found = true) : found.addrStart ≤ addrEnd := by
  by_contra behind
  exact none found member (endsInside_of_overlaps range overlapping (not_le.1 behind))

theorem NoneEndsInside.removeOne (none : tracker.NoneEndsInside addrStart addrEnd)
    (wholeRegions : Bool) (notBehind : found.addrStart ≤ addrEnd) :
    (tracker.removeOne addrStart addrEnd wholeRegions found).NoneEndsInside addrStart addrEnd := by
  intro region member
  rcases (mem_removeOne wholeRegions notBehind).1 member with
    ⟨old, _⟩ | ⟨_, early, rfl⟩
  · exact none region old
  · intro inside
    have := inside.1
    simp only [Memregion.before] at this
    omega

/-- A region is there after the loop if it was there and does not overlap the
range, or if it is the left part of one that does. -/
def Survives (tracker : MemregionTracker) (addrStart addrEnd : ℕ)
    (wholeRegions : Bool) (region : Memregion) : Prop :=
  (region ∈ tracker.regions ∧ ¬ overlaps addrStart addrEnd region = true) ∨
    wholeRegions = false ∧ ∃ found ∈ tracker.regions,
      overlaps addrStart addrEnd found = true ∧
        found.addrStart < addrStart ∧ region = found.before addrStart

theorem survives_removeOne (wellFormed : tracker.WellFormed) (range : addrStart ≤ addrEnd)
    (wholeRegions : Bool) (member : found ∈ tracker.regions)
    (overlapping : overlaps addrStart addrEnd found = true)
    (notBehind : found.addrStart ≤ addrEnd) :
    (tracker.removeOne addrStart addrEnd wholeRegions found).Survives
        addrStart addrEnd wholeRegions region ↔
      tracker.Survives addrStart addrEnd wholeRegions region := by
  have same : ∀ {other}, other ∈ tracker.regions →
      other.addrStart = found.addrStart → other = found := fun otherMember sameStart =>
      wellFormed.eq_of_addrStart otherMember member sameStart
  simp only [Survives, mem_removeOne wholeRegions notBehind]
  constructor
  · rintro (⟨⟨old, _⟩ | ⟨parts, early, rfl⟩, outside⟩ |
      ⟨parts, other, ⟨old, _⟩ | ⟨_, early, rfl⟩, found, otherEarly, rfl⟩)
    · exact .inl ⟨old, outside⟩
    · exact .inr ⟨parts, found, member, overlapping, early, rfl⟩
    · exact .inr ⟨parts, other, old, found, otherEarly, rfl⟩
    · exact absurd found (not_overlaps_before range early)
  · rintro (⟨old, outside⟩ | ⟨parts, other, old, isFound, early, rfl⟩)
    · refine .inl ⟨.inl ⟨old, fun sameStart => outside ?_⟩, outside⟩
      rw [same old sameStart]
      exact overlapping
    · by_cases sameStart : other.addrStart = found.addrStart
      · obtain rfl := same old sameStart
        exact .inl ⟨.inr ⟨parts, early, rfl⟩, not_overlaps_before range early⟩
      · exact .inr ⟨parts, other, .inl ⟨old, sameStart⟩, isFound, early, rfl⟩

section

variable (range : addrStart ≤ addrEnd)
include range

/-- What `remove_overlaps` leaves, whenever it ends. -/
theorem removeOverlaps_spec (wholeRegions : Bool) (rounds : ℕ) (wellFormed : tracker.WellFormed)
    (none : tracker.NoneEndsInside addrStart addrEnd)
    (ran : removeOverlaps addrStart addrEnd wholeRegions rounds tracker = some after) :
    after.WellFormed ∧ ∀ region, region ∈ after.regions ↔
      tracker.Survives addrStart addrEnd wholeRegions region := by
  -- A tracker without an overlapping region is left as it is.
  have ended : ∀ {tracker : MemregionTracker}, (∀ region ∈ tracker.regions,
        ¬ overlaps addrStart addrEnd region = true) → ∀ region, region ∈ tracker.regions ↔
        tracker.Survives addrStart addrEnd wholeRegions region := by
    intro tracker outside region
    constructor
    · exact fun member => .inl ⟨member, outside region member⟩
    · rintro (⟨member, _⟩ | ⟨_, found, member, overlapping, _⟩)
      · exact member
      · exact absurd overlapping (outside found member)
  induction rounds generalizing tracker with
  | zero =>
    simp only [removeOverlaps] at ran
    split_ifs at ran with more
    obtain rfl := Option.some.inj ran
    refine ⟨wellFormed, ended ?_⟩
    simpa using more
  | succ rounds continues =>
    simp only [removeOverlaps] at ran
    split at ran
    case h_1 finished =>
        obtain rfl := Option.some.inj ran
        exact ⟨wellFormed, ended (List.find?_eq_none.1 finished)⟩
    case h_2 found isFound =>
        have member := List.mem_of_find?_eq_some isFound
        have overlapping := List.find?_some isFound
        have notBehind := none.addrStart_le range member overlapping
        obtain ⟨kept, survivors⟩ := continues (wellFormed.removeOne range wholeRegions member
          overlapping notBehind) (none.removeOne wholeRegions notBehind) ran
        refine ⟨kept, fun region => (survivors region).trans ?_⟩
        exact survives_removeOne wellFormed range wholeRegions member overlapping notBehind

theorem length_filter_removeOne_lt (wholeRegions : Bool) (member : found ∈ tracker.regions)
    (overlapping : overlaps addrStart addrEnd found = true)
    (notBehind : found.addrStart ≤ addrEnd) :
    ((tracker.removeOne addrStart addrEnd wholeRegions found).regions.filter
        (overlaps addrStart addrEnd)).length <
      (tracker.regions.filter (overlaps addrStart addrEnd)).length := by
  have outside : (putBack addrStart wholeRegions found).filter
      (overlaps addrStart addrEnd) = [] := by
    rw [putBack]
    split_ifs with early
    · rw [List.filter_eq_nil_iff]
      intro piece isPiece
      rw [List.mem_singleton.1 isPiece]
      exact not_overlaps_before range early.2
    · rfl
  rw [removeOne_regions wholeRegions notBehind, List.filter_append, outside,
    List.append_nil, List.filter_comm, List.length_filter_lt_length_iff_exists]
  exact ⟨found, List.mem_filter.2 ⟨member, overlapping⟩, by simp⟩

/-- The loop ends if no region is found by its end only. -/
theorem exists_removeOverlaps (wholeRegions : Bool) (rounds : ℕ)
    (none : tracker.NoneEndsInside addrStart addrEnd)
    (enough : (tracker.regions.filter (overlaps addrStart addrEnd)).length ≤ rounds) :
    ∃ after, removeOverlaps addrStart addrEnd wholeRegions rounds tracker =
      some after := by
  induction rounds generalizing tracker with
  | zero =>
    have outside := List.eq_nil_of_length_eq_zero (Nat.le_zero.1 enough)
    simpa [removeOverlaps, List.filter_eq_nil_iff] using outside
  | succ rounds continues =>
    simp only [removeOverlaps]
    split
    case h_1 => exact ⟨tracker, rfl⟩
    case h_2 found isFound =>
        have member := List.mem_of_find?_eq_some isFound
        have overlapping := List.find?_some isFound
        have notBehind := none.addrStart_le range member overlapping
        have fewer := length_filter_removeOne_lt range wholeRegions member overlapping notBehind
        exact continues (none.removeOne wholeRegions notBehind) (by omega)

/-- A region that is found by its end only is put back in every round. -/
theorem removeOverlaps_eq_none (rounds : ℕ) (member : region ∈ tracker.regions)
    (inside : endsInside addrStart addrEnd region) :
    removeOverlaps addrStart addrEnd false rounds tracker = none := by
  induction rounds generalizing tracker region with
  | zero =>
    have more : tracker.regions.any (overlaps addrStart addrEnd) = true :=
      List.any_eq_true.2 ⟨region, member, overlaps_of_endsInside inside⟩
    rw [removeOverlaps, if_pos more]
  | succ rounds continues =>
    simp only [removeOverlaps]
    split
    case h_1 finished =>
        exact absurd (overlaps_of_endsInside inside) (List.find?_eq_none.1 finished region member)
    case h_2 found isFound =>
        have overlapping := List.find?_some isFound
        rcases le_or_gt found.addrStart addrEnd with notBehind | behind
        · have other : region.addrStart ≠ found.addrStart := by
            have := inside.2.2
            omega
          exact continues ((mem_removeOne false notBehind).2 (.inl ⟨member, other⟩)) inside
        · obtain ⟨afterStart, beforeEnd, _⟩ := endsInside_of_overlaps range overlapping behind
          have isPut : { found with
              addrStart := addrEnd + 1
              offset := addrEnd + 1 - found.addrStart + found.offset } ∈
              (tracker.removeOne addrStart addrEnd false found).regions := by
            simp only [removeOne, Bool.false_eq_true, if_false, if_pos behind]
            exact mem_put
          exact continues isPut ⟨afterStart, beforeEnd, Nat.lt_succ_self addrEnd⟩

/-! ## Unmapping a range -/

/-- `remove_overlaps` ends, and then exactly the addresses outside the range
are mapped as they were. -/
def Unmaps (tracker : MemregionTracker) (addrStart addrEnd : ℕ) : Prop :=
  ∃ rounds after,
    removeOverlaps addrStart addrEnd false rounds tracker = some after ∧
      ∀ address inode offset, after.Maps address inode offset ↔
        tracker.Maps address inode offset ∧
          ¬ (addrStart ≤ address ∧ address ≤ addrEnd)

theorem maps_of_survivors
    (uncut : ∀ region ∈ tracker.regions, ¬ (region.addrStart ≤ addrEnd ∧ addrEnd < region.addrEnd))
    (none : tracker.NoneEndsInside addrStart addrEnd)
    (survivors : ∀ region, region ∈ after.regions ↔ tracker.Survives addrStart addrEnd false region)
    (address : ℕ) (inode : Inode) (offset : ℕ) : after.Maps address inode offset ↔
      tracker.Maps address inode offset ∧ ¬ (addrStart ≤ address ∧ address ≤ addrEnd) := by
  constructor
  · rintro ⟨region, member, holds, place⟩
    rcases (survivors region).1 member with
      ⟨old, outside⟩ | ⟨_, found, old, overlapping, early, rfl⟩
    · exact ⟨⟨region, old, holds, place⟩, fun inRange => outside (overlaps_of_holds holds inRange)⟩
    · have last := le_addrEnd_of_overlaps range overlapping early
      obtain ⟨afterStart, beforeEnd⟩ := holds
      simp only [Memregion.before] at afterStart beforeEnd
      exact ⟨⟨found, old, ⟨afterStart, by omega⟩, place⟩, by omega⟩
  · rintro ⟨⟨region, old, ⟨afterStart, beforeEnd⟩, place⟩, outside⟩
    by_cases overlapping : overlaps addrStart addrEnd region = true
    · -- What is left of the region lies in front of the range.
      have notBehind := none.addrStart_le range old overlapping
      have notCut := uncut region old
      have early : region.addrStart < addrStart := by omega
      refine ⟨region.before addrStart, (survivors _).2
        (.inr ⟨rfl, region, old, overlapping, early, rfl⟩), ⟨afterStart, ?_⟩, place⟩
      simp only [Memregion.before]
      omega
    · exact ⟨region, (survivors region).2 (.inl ⟨old, overlapping⟩), ⟨afterStart, beforeEnd⟩, place⟩

theorem Unmaps.noneEndsInside (unmaps : tracker.Unmaps addrStart addrEnd)
    : tracker.NoneEndsInside addrStart addrEnd := by
  obtain ⟨rounds, after, ran, _⟩ := unmaps
  intro region member inside
  rw [removeOverlaps_eq_none range rounds member inside] at ran
  exact nomatch ran

end

/-- The first address behind the range is lost if the region that holds it
overlaps the range. -/
theorem not_unmaps_of_longer (wellFormed : tracker.WellFormed) (range : addrStart ≤ addrEnd)
    (member : region ∈ tracker.regions) (notBehind : region.addrStart ≤ addrEnd)
    (longer : addrEnd < region.addrEnd) : ¬ tracker.Unmaps addrStart addrEnd := by
  intro unmaps
  have none := unmaps.noneEndsInside range
  obtain ⟨rounds, after, ran, maps⟩ := unmaps
  have holds : region.Holds (addrEnd + 1) := ⟨by omega, longer⟩
  have holdsLast : region.Holds addrEnd := ⟨notBehind, longer.le⟩
  obtain ⟨piece, pieceMember, pieceHolds, _⟩ := (maps (addrEnd + 1) _ _).2
    ⟨⟨region, member, holds, rfl, rfl⟩, by omega⟩
  obtain ⟨_, survivors⟩ := removeOverlaps_spec range false rounds wellFormed none ran
  rcases (survivors piece).1 pieceMember with
    ⟨old, outside⟩ | ⟨_, found, _, _, _, rfl⟩
  · obtain rfl := wellFormed.eq_of_holds old member pieceHolds holds
    exact outside (overlaps_of_holds holdsLast ⟨range, le_rfl⟩)
  · have := pieceHolds.2
    simp only [Memregion.before] at this
    omega

/-- Unmapping is exact if no region goes on behind the range: the part behind
it is not put back.  An empty region that ends in the range and starts behind
it is put back for ever. -/
theorem unmaps_iff
    (wellFormed : tracker.WellFormed) (range : addrStart ≤ addrEnd) :
    tracker.Unmaps addrStart addrEnd ↔
      ∀ region ∈ tracker.regions,
        ¬ (region.addrStart ≤ addrEnd ∧ addrEnd < region.addrEnd) ∧
          ¬ (addrStart ≤ region.addrEnd ∧ region.addrEnd ≤ addrEnd ∧
            addrEnd < region.addrStart) := by
  constructor
  · intro unmaps region member
    refine ⟨fun ⟨notBehind, longer⟩ => ?_, unmaps.noneEndsInside range region member⟩
    exact not_unmaps_of_longer wellFormed range member notBehind longer unmaps
  · intro uncut
    have none : tracker.NoneEndsInside addrStart addrEnd :=
      fun region member => (uncut region member).2
    obtain ⟨after, ran⟩ := exists_removeOverlaps range false _ none le_rfl
    obtain ⟨_, survivors⟩ := removeOverlaps_spec range false _ wellFormed none ran
    exact ⟨_, after, ran, maps_of_survivors range
      (fun region member => (uncut region member).1) none survivors⟩

/-- Two regions; the range cuts off the end of the first. -/
theorem unmaps_iff_end :
    MemregionTracker.Unmaps
      ⟨[⟨0, 9, ["w", "a"], 7, 0⟩, ⟨20, 29, ["w", "b"], 8, 100⟩]⟩ 5 12 := by
  refine (unmaps_iff ⟨by decide, ?_⟩ (by decide)).2 (by decide)
  simp only [List.pairwise_pair, Memregion.Apart, Memregion.Holds]
  omega

/-- Unmapping the middle of a region unmaps its end as well. -/
theorem hole_unmaps_end : ¬ MemregionTracker.Unmaps ⟨[⟨0, 9, ["w", "a"], 7, 0⟩]⟩ 3 5 :=
  not_unmaps_of_longer ⟨by decide, List.pairwise_singleton _ _⟩ (by decide)
    (List.mem_singleton_self _) (by decide) (by decide)

/-! ## Resolving a range -/

/-- The states that calls with non-empty ranges lead to. -/
inductive Reachable : MemregionTracker → Prop
  | start : Reachable ⟨[]⟩
  | insert {tracker after : MemregionTracker} {region : Memregion}
      (reached : Reachable tracker)
      (nonempty : region.addrStart ≤ region.addrEnd)
      (ran : tracker.insert region = .ok after) : Reachable after
  | removeOverlaps {tracker after : MemregionTracker}
      {addrStart addrEnd : ℕ} {wholeRegions : Bool} {rounds : ℕ}
      (reached : Reachable tracker) (range : addrStart ≤ addrEnd)
      (ran : MemregionTracker.removeOverlaps addrStart addrEnd wholeRegions
        rounds tracker = some after) : Reachable after

/-- The regions have different keys, share no address and are not empty. -/
structure Sound (tracker : MemregionTracker) : Prop extends tracker.WellFormed where
  nonempty : ∀ region ∈ tracker.regions, region.addrStart ≤ region.addrEnd

theorem Sound.noneEndsInside (sound : tracker.Sound) (addrStart addrEnd : ℕ) :
    tracker.NoneEndsInside addrStart addrEnd := by
  rintro region member ⟨_, beforeEnd, behind⟩
  have := sound.nonempty region member
  omega

theorem Sound.insert (sound : tracker.Sound) (nonempty : region.addrStart ≤ region.addrEnd)
    (ran : tracker.insert region = .ok after) : after.Sound := by
  rw [MemregionTracker.insert] at ran
  split_ifs at ran with overlap
  obtain rfl := Except.ok.inj ran
  have outside : ∀ old ∈ tracker.regions,
      ¬ (old.addrStart ≤ region.addrEnd ∧ region.addrStart ≤ old.addrEnd) := by
    intro old member within
    exact overlap (List.any_eq_true.2 ⟨old, member,
      (overlaps_iff_of_nonempty nonempty (sound.nonempty old member)).2 within⟩)
  have isNew : ∀ old ∈ tracker.regions, old.addrStart ≠ region.addrStart := by
    intro old member same
    have := sound.nonempty old member
    exact outside old member (by omega)
  refine ⟨⟨?_, ?_⟩, ?_⟩ <;> rw [put_of_notMem isNew]
  · rw [List.map_append, List.nodup_append']
    refine ⟨sound.starts, List.nodup_singleton _, ?_⟩
    simpa [List.disjoint_singleton] using isNew
  · rw [List.pairwise_append]
    refine ⟨sound.disjoint, List.pairwise_singleton _ _, ?_⟩
    rintro old member piece isPiece address ⟨_, _⟩ ⟨_, _⟩
    obtain rfl := List.mem_singleton.1 isPiece
    exact outside old member (by omega)
  · intro piece member
    rcases List.mem_append.1 member with old | isPiece
    · exact sound.nonempty piece old
    · rwa [List.mem_singleton.1 isPiece]

theorem Sound.removeOverlaps {wholeRegions : Bool} {rounds : ℕ} (sound : tracker.Sound)
    (range : addrStart ≤ addrEnd)
    (ran : MemregionTracker.removeOverlaps addrStart addrEnd wholeRegions
      rounds tracker = some after) : after.Sound := by
  obtain ⟨wellFormed, survivors⟩ := removeOverlaps_spec range wholeRegions
    rounds sound.toWellFormed (sound.noneEndsInside _ _) ran
  refine ⟨wellFormed, fun region member => ?_⟩
  rcases (survivors region).1 member with
    ⟨old, _⟩ | ⟨_, found, _, _, early, rfl⟩
  · exact sound.nonempty region old
  · simp only [Memregion.before]
    omega

theorem Reachable.sound (reached : tracker.Reachable) : tracker.Sound := by
  induction reached with
  | start => exact ⟨⟨List.nodup_nil, List.Pairwise.nil⟩, nofun⟩
  | insert _ nonempty ran sound => exact sound.insert nonempty ran
  | removeOverlaps _ range ran sound => exact sound.removeOverlaps range ran

theorem clip_eq : clip addrStart addrEnd region =
      { region with
        addrStart := max region.addrStart addrStart
        addrEnd := min region.addrEnd addrEnd
        offset := addrStart - region.addrStart + region.offset } := by
  cases region
  simp only [clip]
  split_ifs <;> grind

theorem clip_holds : (clip addrStart addrEnd region).Holds address ↔
      region.Holds address ∧ addrStart ≤ address ∧ address ≤ addrEnd := by
  simp only [clip_eq, Memregion.Holds]
  omega

theorem clip_fileOffset (holds : (clip addrStart addrEnd region).Holds address) :
    (clip addrStart addrEnd region).fileOffset address = region.fileOffset address := by
  have inside := clip_holds.1 holds
  simp only [clip_eq, Memregion.fileOffset]
  omega

theorem clippable_of_overlaps (range : addrStart ≤ addrEnd)
    (nonempty : region.addrStart ≤ region.addrEnd)
    (overlapping : overlaps addrStart addrEnd region = true) :
    clippable addrStart addrEnd region = true := by
  have within := (overlaps_iff_of_nonempty range nonempty).1 overlapping
  simp only [clippable, clip_eq, Bool.and_eq_true, decide_eq_true_eq]
  omega

/-- The regions that `resolve_range` cuts, in the order of their starts. -/
def inOrder (tracker : MemregionTracker) (addrStart addrEnd : ℕ) : List Memregion :=
  (tracker.regions.filter (overlaps addrStart addrEnd)).insertionSort
    fun left right => left.addrStart ≤ right.addrStart

theorem mem_inOrder : region ∈ tracker.inOrder addrStart addrEnd ↔
      region ∈ tracker.regions ∧ overlaps addrStart addrEnd region = true := by
  rw [inOrder, List.mem_insertionSort, List.mem_filter]

theorem Sound.pairwise_inOrder (sound : tracker.Sound) (addrStart addrEnd : ℕ) :
    (tracker.inOrder addrStart addrEnd).Pairwise fun first second =>
      first.addrEnd < second.addrStart := by
  let byStart (left right : Memregion) : Prop := left.addrStart ≤ right.addrStart
  have sorted : (tracker.inOrder addrStart addrEnd).Pairwise byStart :=
    List.pairwise_insertionSort byStart _
  have apart : (tracker.inOrder addrStart addrEnd).Pairwise Memregion.Apart :=
    ((List.perm_insertionSort _ _).pairwise_iff symm).2 (sound.disjoint.sublist List.filter_sublist)
  refine (sorted.and apart).imp_of_mem ?_
  rintro first second firstMember secondMember ⟨before, apart⟩
  by_contra late
  have := sound.nonempty second (mem_inOrder.1 secondMember).1
  exact apart second.addrStart ⟨before, not_lt.1 late⟩ ⟨le_rfl, this⟩

/-- What `resolve_range` is to return for a range. -/
structure Resolved (tracker : MemregionTracker) (addrStart addrEnd : ℕ)
    (pieces : List Memregion) : Prop where
  inOrder : pieces.Pairwise fun first second =>
    first.addrEnd < second.addrStart
  inside : ∀ piece ∈ pieces, addrStart ≤ piece.addrStart ∧
    piece.addrStart ≤ piece.addrEnd ∧ piece.addrEnd ≤ addrEnd
  maps : ∀ address inode offset,
    MemregionTracker.Maps ⟨pieces⟩ address inode offset ↔
      tracker.Maps address inode offset ∧
        addrStart ≤ address ∧ address ≤ addrEnd

theorem Sound.resolved (sound : tracker.Sound) (range : addrStart ≤ addrEnd) :
    tracker.Resolved addrStart addrEnd
      ((tracker.inOrder addrStart addrEnd).map (clip addrStart addrEnd)) where
  inOrder := by
    refine (sound.pairwise_inOrder addrStart addrEnd).map _ ?_
    simp only [clip_eq]
    omega
  inside := by
    intro piece member
    obtain ⟨region, isFound, rfl⟩ := List.mem_map.1 member
    obtain ⟨old, overlapping⟩ := mem_inOrder.1 isFound
    have nonempty := sound.nonempty region old
    have within := (overlaps_iff_of_nonempty range nonempty).1 overlapping
    simp only [clip_eq]
    omega
  maps := by
    intro address inode offset
    constructor
    · rintro ⟨piece, member, holds, sameInode, sameOffset⟩
      obtain ⟨region, isFound, rfl⟩ := List.mem_map.1 member
      rw [clip_eq] at sameInode
      rw [clip_fileOffset holds] at sameOffset
      obtain ⟨regionHolds, inRange⟩ := clip_holds.1 holds
      exact ⟨⟨region, (mem_inOrder.1 isFound).1, regionHolds, sameInode, sameOffset⟩, inRange⟩
    · rintro ⟨⟨region, old, regionHolds, sameInode, sameOffset⟩, inRange⟩
      have holds := clip_holds.2 ⟨regionHolds, inRange⟩
      have isFound := mem_inOrder.2 ⟨old, overlaps_of_holds regionHolds inRange⟩
      refine ⟨_, List.mem_map_of_mem isFound, holds, ?_, ?_⟩
      · rw [clip_eq]
        exact sameInode
      · rw [clip_fileOffset holds]
        exact sameOffset

/-- Whatever was inserted and removed, `resolve_range` finds what the
addresses of a range are mapped to. -/
theorem resolveRange_of_reachable (reached : tracker.Reachable) :
    tracker.Sound ∧ ∀ addrStart addrEnd, addrStart ≤ addrEnd →
      ∃ pieces, tracker.resolveRange addrStart addrEnd = .ok pieces ∧
        tracker.Resolved addrStart addrEnd pieces := by
  have sound := reached.sound
  refine ⟨sound, fun addrStart addrEnd range =>
    ⟨_, if_pos (List.all_eq_true.2 fun region isFound => ?_), sound.resolved range⟩⟩
  obtain ⟨old, overlapping⟩ := mem_inOrder.1 isFound
  exact clippable_of_overlaps range (sound.nonempty region old) overlapping

/-- Two regions are inserted, and the end of the first is removed. -/
theorem resolveRange_of_reachable_two :
    ∃ pieces, MemregionTracker.resolveRange
        ⟨[⟨20, 29, ["w", "b"], 8, 100⟩, ⟨0, 4, ["w", "a"], 7, 0⟩]⟩ 3 22 =
          .ok pieces ∧
      MemregionTracker.Resolved
        ⟨[⟨20, 29, ["w", "b"], 8, 100⟩, ⟨0, 4, ["w", "a"], 7, 0⟩]⟩ 3 22
          pieces := by
  have first : MemregionTracker.insert ⟨[]⟩ ⟨0, 9, ["w", "a"], 7, 0⟩ =
      .ok ⟨[⟨0, 9, ["w", "a"], 7, 0⟩]⟩ := rfl
  have second : MemregionTracker.insert ⟨[⟨0, 9, ["w", "a"], 7, 0⟩]⟩ ⟨20, 29, ["w", "b"], 8, 100⟩ =
        .ok ⟨[⟨0, 9, ["w", "a"], 7, 0⟩, ⟨20, 29, ["w", "b"], 8, 100⟩]⟩ := rfl
  have cut : MemregionTracker.removeOverlaps 5 12 false 1
      ⟨[⟨0, 9, ["w", "a"], 7, 0⟩, ⟨20, 29, ["w", "b"], 8, 100⟩]⟩ =
        some ⟨[⟨20, 29, ["w", "b"], 8, 100⟩, ⟨0, 4, ["w", "a"], 7, 0⟩]⟩ := rfl
  have reached := ((Reachable.start.insert (by decide) first).insert
    (by decide) second).removeOverlaps (by decide) cut
  exact (resolveRange_of_reachable reached).2 3 22 (by decide)

end

end MemregionTracker

end Alice
