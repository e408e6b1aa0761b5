import Audhsos.Abi
import Audhsos.Wire.Checksum

/-!
The layout of a FAT32 volume: the parameter block as numbers, and those of a fresh volume. Its table
is sized by a loop that starts at one sector and takes the size that the clusters beside such a
table need; beside a larger table there are fewer, so the second round ends the loop.
-/

namespace Audhsos.Fat

open Wire

def satMul32 (a b : Nat) : Nat := min (a * b) (u32Size - 1)

inductive Error where
  | device (sector : Nat)
  | signature
  | sectorSize (bytes : Nat)
  | clusterSize (sectors : Nat)
  | layout
  | notFat32 (clusters : Nat)
  | tooSmall (sectors : Nat)
  | cluster (cluster : Nat)
  | freeInChain (cluster : Nat)
  | badCluster (cluster : Nat)
  | chainLoop (first : Nat)
deriving DecidableEq, Repr

def rootCluster : Nat := 2

def minClusters : Nat := 65525

def maxClusters : Nat := 0x0FFFFFF5

def maxSectorsPerCluster : Nat := 128

def sectorBytes : Nat := 512

structure FormatOptions where
  sectorsPerCluster : Nat
  reservedSectors : Nat
  fatCount : Nat
  media : Byte
  volumeId : BitVec 32
  volumeLabel : List Byte
  sectorsPerCluster_lt : sectorsPerCluster < u32Size
  reservedSectors_lt : reservedSectors < u32Size
  fatCount_lt : fatCount < u32Size
  volumeLabel_length : volumeLabel.length = 11

structure Geometry where
  sectors : Nat
  sectorsPerCluster : Nat
  reservedSectors : Nat
  fatCount : Nat
  fatSectors : Nat
  clusters : Nat
  rootCluster : Nat
deriving DecidableEq, Repr

namespace Geometry

variable (g : Geometry)

/-- The first sector of the data region. -/
def dataStart : Nat := satAdd32 g.reservedSectors (satMul32 g.fatCount g.fatSectors)

def clusterSector (cluster : Nat) : Nat :=
  satAdd32 g.dataStart (satMul32 (cluster - Fat.rootCluster) g.sectorsPerCluster)

def lastCluster : Nat := satAdd32 g.clusters Fat.rootCluster - 1

def holds (cluster : Nat) : Bool :=
  Fat.rootCluster ≤ cluster ∧ cluster ≤ g.lastCluster

/-- The first sector of a copy of the table. -/
def fatStart (copy : Nat) : Nat :=
  satAdd32 g.reservedSectors (satMul32 copy g.fatSectors)

end Geometry

/-- A power of two, at least one sector and at most `maxSectorsPerCluster`. -/
def checkClusterSize (sectorsPerCluster : Nat) : Except Error Unit :=
  if sectorsPerCluster = 0 ∨ ¬ sectorsPerCluster.isPowerOfTwo ∨
      maxSectorsPerCluster < sectorsPerCluster then
    .error (.clusterSize sectorsPerCluster)
  else .ok ()

/-- The sectors a table of the entries of so many clusters and the two reserved ones takes. -/
def neededSectors (clusters : Nat) : Nat :=
  (satMul32 (satAdd32 clusters rootCluster) 4 + (sectorBytes - 1)) / sectorBytes

/-- The clusters beside tables of `fatSectors` sectors, if the tables fit. -/
def clustersBeside (options : FormatOptions) (available fatSectors : Nat) : Option Nat :=
  if satMul32 options.fatCount fatSectors ≤ available then
    some ((available - satMul32 options.fatCount fatSectors) / options.sectorsPerCluster)
  else none

/-- The search for the size of the table, for at most so many rounds. -/
def sizeLoop (sectors : Nat) (options : FormatOptions) (available : Nat) :
    Nat → Nat → Option (Except Error Geometry)
  | 0, _ => none
  | rounds + 1, fatSectors =>
    match clustersBeside options available fatSectors with
    | none => some (.error (.tooSmall sectors))
    | some clusters =>
      if neededSectors clusters ≤ fatSectors then
        if minClusters ≤ clusters ∧ clusters ≤ maxClusters then
          some (.ok {
            sectors
            sectorsPerCluster := options.sectorsPerCluster
            reservedSectors := options.reservedSectors
            fatCount := options.fatCount
            fatSectors
            clusters
            rootCluster })
        else some (.error (.notFat32 clusters))
      else sizeLoop sectors options available rounds (neededSectors clusters)

/-! ## The loop ends -/

section Size

variable {sectors available fatSectors clusters clusters' rounds : Nat} {options : FormatOptions}

theorem neededSectors_mono (h : clusters ≤ clusters') :
    neededSectors clusters ≤ neededSectors clusters' := by
  unfold neededSectors satMul32 satAdd32 u32Size sectorBytes rootCluster
  omega

theorem clustersBeside_anti {size size' : Nat} (hsize : size ≤ size')
    (h : clustersBeside options available size = some clusters)
    (h' : clustersBeside options available size' = some clusters') : clusters' ≤ clusters := by
  unfold clustersBeside at h h'
  split at h <;> cases h
  split at h' <;> cases h'
  refine Nat.div_le_div_right (Nat.sub_le_sub_left ?_ available)
  have hmul := Nat.mul_le_mul_left options.fatCount hsize
  unfold satMul32
  omega

theorem sizeLoop_second (h : clustersBeside options available 1 = some clusters)
    (hmore : ¬ neededSectors clusters ≤ 1) (rounds : Nat) :
    sizeLoop sectors options available (rounds + 1) (neededSectors clusters) =
      sizeLoop sectors options available 1 (neededSectors clusters) := by
  unfold sizeLoop
  cases hbeside : clustersBeside options available (neededSectors clusters) with
  | none => rfl
  | some clusters' =>
    have hle := neededSectors_mono (clustersBeside_anti (by omega) h hbeside)
    dsimp only
    rw [if_pos hle, if_pos hle]

theorem sizeLoop_rounds (sectors : Nat) (options : FormatOptions) (available rounds : Nat) :
    sizeLoop sectors options available (rounds + 2) 1 = sizeLoop sectors options available 2 1 := by
  conv_lhs => unfold sizeLoop
  conv_rhs => unfold sizeLoop
  cases hbeside : clustersBeside options available 1 with
  | none => rfl
  | some clusters =>
    dsimp only
    by_cases hone : neededSectors clusters ≤ 1
    · rw [if_pos hone, if_pos hone]
    · rw [if_neg hone, if_neg hone]
      exact sizeLoop_second hbeside hone rounds

theorem isSome_sizeLoop (sectors : Nat) (options : FormatOptions) (available : Nat) :
    (sizeLoop sectors options available 2 1).isSome = true := by
  unfold sizeLoop
  cases hbeside : clustersBeside options available 1 with
  | none => rfl
  | some clusters =>
    dsimp only
    by_cases hone : neededSectors clusters ≤ 1
    · rw [if_pos hone]
      split <;> rfl
    rw [if_neg hone]
    unfold sizeLoop
    cases hsecond : clustersBeside options available (neededSectors clusters) with
    | none => rfl
    | some clusters' =>
      have hle := neededSectors_mono (clustersBeside_anti (by omega) hbeside hsecond)
      dsimp only
      rw [if_pos hle]
      split <;> rfl

end Size

/-- The geometry a device of `sectors` sectors gets under `options`. -/
def geometryFor (sectors : Nat) (options : FormatOptions) : Except Error Geometry :=
  match checkClusterSize options.sectorsPerCluster with
  | .error error => .error error
  | .ok _ =>
    if options.fatCount = 0 ∨ options.reservedSectors = 0 then .error .layout
    else if sectors < options.reservedSectors then .error (.tooSmall sectors)
    else
      (sizeLoop sectors options (sectors - options.reservedSectors) 2 1).get
        (isSome_sizeLoop sectors options _)

/-! ## The size of the table -/

variable (options : FormatOptions) (available fatSectors : Nat)

/-- Tables of `fatSectors` sectors fit, and each has an entry for every cluster that fits beside
them and the two reserved entries. -/
def Describes : Prop :=
  options.fatCount * fatSectors ≤ available ∧
    (available - options.fatCount * fatSectors) / options.sectorsPerCluster + rootCluster ≤
      128 * fatSectors

/-- The smallest size of at least one sector that describes what remains beside it. -/
def Smallest : Prop :=
  1 ≤ fatSectors ∧ Describes options available fatSectors ∧
    ∀ size, 1 ≤ size → Describes options available size → fatSectors ≤ size

/-- The last sector of the table that the clusters beside tables of one sector need is needed
beside tables that are one sector smaller as well. -/
def LastSectorNeeded (available : Nat) : Prop :=
  let size := neededSectors
    ((available - options.fatCount) / options.sectorsPerCluster) - 1
  128 * size < (available - options.fatCount * size) / options.sectorsPerCluster + rootCluster

section Size

variable {sectors available fatSectors clusters clusters' rounds : Nat} {options : FormatOptions}
  {g : Geometry}

theorem Describes.mono {size size' : Nat} (h : Describes options available size)
    (hle : size ≤ size') (hfits : options.fatCount * size' ≤ available) :
    Describes options available size' := by
  refine ⟨hfits, ?_⟩
  have hmul := Nat.mul_le_mul_left options.fatCount hle
  have hdiv : (available - options.fatCount * size') / options.sectorsPerCluster ≤
      (available - options.fatCount * size) / options.sectorsPerCluster :=
    Nat.div_le_div_right (by omega)
  have hsize := h.2
  omega

/-- What is known of an answer: where the loop stood when it gave it. -/
theorem sizeLoop_ok (h : sizeLoop sectors options available (rounds + 1) fatSectors = some (.ok g))
    (hfirst : neededSectors clusters ≤ fatSectors ∨ rounds = 0)
    (hbeside : clustersBeside options available fatSectors = some clusters) :
    neededSectors clusters ≤ fatSectors ∧ minClusters ≤ clusters ∧ clusters ≤ maxClusters ∧
      g = {
        sectors
        sectorsPerCluster := options.sectorsPerCluster
        reservedSectors := options.reservedSectors
        fatCount := options.fatCount
        fatSectors
        clusters
        rootCluster } := by
  unfold sizeLoop at h
  rw [hbeside] at h
  dsimp only at h
  by_cases hneeded : neededSectors clusters ≤ fatSectors
  · rw [if_pos hneeded] at h
    split at h
    next hrange =>
      cases h
      exact ⟨hneeded, hrange.1, hrange.2, rfl⟩
    next => cases h
  · obtain hfirst | rfl := hfirst
    · exact absurd hfirst hneeded
    · rw [if_neg hneeded] at h
      cases h

theorem sizeLoop_answer (havailable : available < u32Size)
    (h : sizeLoop sectors options available 2 1 = some (.ok g)) :
    options.fatCount ≤ available ∧
      g.fatSectors = neededSectors ((available - options.fatCount) / options.sectorsPerCluster) ∧
      options.fatCount * g.fatSectors ≤ available ∧
      g.clusters = (available - options.fatCount * g.fatSectors) / options.sectorsPerCluster ∧
      neededSectors g.clusters ≤ g.fatSectors ∧
      minClusters ≤ g.clusters ∧ g.clusters ≤ maxClusters ∧
      g = {
        sectors
        sectorsPerCluster := options.sectorsPerCluster
        reservedSectors := options.reservedSectors
        fatCount := options.fatCount
        fatSectors := g.fatSectors
        clusters := g.clusters
        rootCluster } := by
  have hcount := options.fatCount_lt
  have hone : satMul32 options.fatCount 1 = options.fatCount := by
    unfold satMul32
    omega
  cases hfirst : clustersBeside options available 1 with
  | none =>
    unfold sizeLoop at h
    rw [hfirst] at h
    cases h
  | some clusters =>
    have hbeside := hfirst
    unfold clustersBeside at hbeside
    rw [hone] at hbeside
    split at hbeside
    case isFalse => cases hbeside
    next hfits =>
    have hclusters : (available - options.fatCount) / options.sectorsPerCluster = clusters :=
      Option.some.inj hbeside
    rw [hclusters]
    by_cases hsmall : neededSectors clusters ≤ 1
    · -- so few clusters are not enough for the format
      obtain ⟨-, hmin, -⟩ := sizeLoop_ok h (.inl hsmall) hfirst
      have hmany := neededSectors_mono hmin
      rw [show neededSectors minClusters = 512 by decide] at hmany
      omega
    have hsecond : sizeLoop sectors options available 1 (neededSectors clusters) =
        some (.ok g) := by
      unfold sizeLoop at h
      rw [hfirst] at h
      dsimp only at h
      rwa [if_neg hsmall] at h
    cases hnext : clustersBeside options available (neededSectors clusters) with
    | none =>
      unfold sizeLoop at hsecond
      rw [hnext] at hsecond
      cases hsecond
    | some clusters' =>
      obtain ⟨hneeded, hmin, hmax, hg⟩ := sizeLoop_ok hsecond (.inr rfl) hnext
      unfold clustersBeside at hnext
      split at hnext
      case isFalse => cases hnext
      next hroom =>
      have hdiv := Option.some.inj hnext
      -- tables whose size saturates leave no cluster
      have hexact : satMul32 options.fatCount (neededSectors clusters) =
          options.fatCount * neededSectors clusters := by
        unfold satMul32
        refine Nat.min_eq_left ?_
        by_contra hover
        have hzero : available - satMul32 options.fatCount (neededSectors clusters) = 0 := by
          unfold satMul32
          omega
        rw [hzero, Nat.zero_div] at hdiv
        unfold minClusters at hmin
        omega
      rw [hexact] at hdiv hroom
      subst hg
      exact ⟨hfits, rfl, hroom, hdiv.symm, hneeded, hmin, hmax, rfl⟩

theorem entries_of_neededSectors (hmax : clusters ≤ maxClusters)
    (h : neededSectors clusters ≤ fatSectors) : clusters + rootCluster ≤ 128 * fatSectors := by
  unfold maxClusters at hmax
  unfold neededSectors satMul32 satAdd32 u32Size sectorBytes rootCluster at h
  unfold rootCluster
  omega

theorem geometryFor_ok (h : geometryFor sectors options = .ok g) :
    options.reservedSectors ≤ sectors ∧ 0 < options.reservedSectors ∧ 0 < options.fatCount ∧
      checkClusterSize options.sectorsPerCluster = .ok () ∧
      sizeLoop sectors options (sectors - options.reservedSectors) 2 1 = some (.ok g) := by
  unfold geometryFor at h
  cases hcheck : checkClusterSize options.sectorsPerCluster with
  | error error =>
    rw [hcheck] at h
    cases h
  | ok done =>
    rw [hcheck] at h
    dsimp only at h
    split at h
    · cases h
    next hnone =>
    split at h
    · cases h
    next hroom =>
    refine ⟨by omega, by omega, by omega, rfl, ?_⟩
    rw [← h, Option.some_get]

end Size

/-- The search for the size of the table ends for every device and all options; and the size it
finds is the smallest that describes what remains beside it exactly when the last sector it takes
is needed beside smaller tables too. -/
theorem table_size_smallest_iff (sectors : Nat) (hsectors : sectors < u32Size)
    (options : FormatOptions) :
    (∀ available, ∃ answer, ∀ rounds, 2 ≤ rounds →
      sizeLoop sectors options available rounds 1 = some answer) ∧
    ∀ g, geometryFor sectors options = .ok g →
      (Smallest options (sectors - options.reservedSectors) g.fatSectors ↔
        LastSectorNeeded options (sectors - options.reservedSectors)) := by
  refine ⟨fun available => ?_, fun g hg => ?_⟩
  · obtain ⟨answer, hanswer⟩ := Option.isSome_iff_exists.mp (isSome_sizeLoop sectors options available)
    refine ⟨answer, fun rounds hrounds => ?_⟩
    obtain ⟨more, rfl⟩ := Nat.exists_eq_add_of_le' hrounds
    rw [sizeLoop_rounds, hanswer]
  · obtain ⟨hreserved, hpos, hcount, -, hloop⟩ := geometryFor_ok hg
    obtain ⟨-, hsize, hfits, hclusters, hneeded, hmin, hmax, -⟩ := sizeLoop_answer (by omega) hloop
    have hentries := entries_of_neededSectors hmax hneeded
    have hdescribes : Describes options (sectors - options.reservedSectors) g.fatSectors :=
      ⟨hfits, hclusters ▸ hentries⟩
    have htwo : 2 ≤ g.fatSectors := by
      unfold minClusters at hmin
      omega
    have hless : options.fatCount * (g.fatSectors - 1) ≤ options.fatCount * g.fatSectors :=
      Nat.mul_le_mul_left _ (Nat.sub_le _ _)
    unfold LastSectorNeeded
    rw [← hsize]
    constructor
    · intro hsmallest
      by_contra hnot
      have hle := hsmallest.2.2 (g.fatSectors - 1) (by omega) ⟨by omega, by omega⟩
      omega
    · intro hlast
      refine ⟨by omega, hdescribes, fun size hone hsize' => ?_⟩
      by_contra hlt
      have hsmaller := hsize'.mono (show size ≤ g.fatSectors - 1 by omega) (by omega)
      have hroom := hsmaller.2
      dsimp only at hlast
      omega

/-- One sector per cluster, two tables and thirty-two reserved sectors. -/
def defaultOptions : FormatOptions where
  sectorsPerCluster := 1
  reservedSectors := 32
  fatCount := 2
  media := 0xF8
  volumeId := 0
  volumeLabel := [0x4E, 0x4F, 0x20, 0x4E, 0x41, 0x4D, 0x45, 0x20, 0x20, 0x20, 0x20]
  sectorsPerCluster_lt := by decide
  reservedSectors_lt := by decide
  fatCount_lt := show 2 < 2 ^ 32 by decide
  volumeLabel_length := rfl

/-- The largest clusters and one table. -/
def largeOptions : FormatOptions :=
  { defaultOptions with
    sectorsPerCluster := 128
    fatCount := 1
    sectorsPerCluster_lt := by decide
    fatCount_lt := by decide }

theorem table_size_smallest_iff_large :
    geometryFor 8387744 largeOptions = .ok ⟨8387744, 128, 32, 1, 512, 65525, 2⟩ ∧
    Smallest largeOptions 8387712 512 := by
  have hok : geometryFor 8387744 largeOptions = .ok ⟨8387744, 128, 32, 1, 512, 65525, 2⟩ := by
    decide +kernel
  refine ⟨hok, ((table_size_smallest_iff 8387744 (by decide) largeOptions).2 _ hok).mpr ?_⟩
  unfold LastSectorNeeded
  decide +kernel

/-- Beside two tables of 539 sectors a device of 70032 sectors holds 68922 clusters, which such a
table describes; the tables it gets have 547 sectors. -/
theorem table_larger_than_needed :
    geometryFor 70032 defaultOptions = .ok ⟨70032, 1, 32, 2, 547, 68906, 2⟩ ∧
    Describes defaultOptions 70000 539 ∧ ¬ Smallest defaultOptions 70000 547 := by
  have hsmaller : Describes defaultOptions 70000 539 := by
    unfold Describes
    decide +kernel
  refine ⟨by decide +kernel, hsmaller, fun hsmallest => ?_⟩
  have hle := hsmallest.2.2 539 (by decide) hsmaller
  omega

/-- No two areas of a fresh volume share a sector: the tables follow the reserved sectors and one
another, and every cluster has an entry in them and sectors of its own behind them. -/
theorem areas_apart (sectors : Nat) (hsectors : sectors < u32Size) (options : FormatOptions)
    (g : Geometry) (h : geometryFor sectors options = .ok g) :
    (∀ copy < g.fatCount, g.reservedSectors ≤ g.fatStart copy ∧
      g.fatStart copy + g.fatSectors ≤ g.fatStart (copy + 1) ∧
      g.fatStart (copy + 1) ≤ g.dataStart) ∧
    ∀ cluster, g.holds cluster → cluster < 128 * g.fatSectors ∧
      g.dataStart ≤ g.clusterSector cluster ∧
      g.clusterSector cluster + g.sectorsPerCluster ≤ g.sectors ∧
      ∀ other, cluster < other → g.holds other →
        g.clusterSector cluster + g.sectorsPerCluster ≤ g.clusterSector other := by
  obtain ⟨hreserved, -, -, -, hloop⟩ := geometryFor_ok h
  obtain ⟨-, -, hfits, hclusters, hneeded, -, hmax, hg⟩ := sizeLoop_answer (by omega) hloop
  have hentries := entries_of_neededSectors hmax hneeded
  obtain ⟨total, _, _, _, size, clusters, _⟩ := g
  obtain ⟨rfl, rfl, rfl, rfl, -⟩ := Geometry.mk.inj hg
  have hdata := Nat.div_mul_le_self (total - options.reservedSectors - options.fatCount * size)
    options.sectorsPerCluster
  dsimp only at hfits hclusters hentries
  rw [← hclusters] at hdata
  have hgrows : ∀ a b k : Nat, a < b → a * k + k ≤ b * k := by
    intro a b k hlt
    rw [← Nat.succ_mul]
    exact Nat.mul_le_mul_right k hlt
  unfold Geometry.clusterSector Geometry.fatStart Geometry.dataStart Geometry.holds
    Geometry.lastCluster satMul32 satAdd32 rootCluster
  generalize u32Size = w at *
  simp only [decide_eq_true_eq]
  refine ⟨fun copy hcopy => ?_, fun cluster hcluster => ?_⟩
  · have hle := hgrows copy _ size hcopy
    rw [Nat.succ_mul]
    omega
  · have hle := hgrows (cluster - 2) clusters options.sectorsPerCluster (by omega)
    unfold rootCluster at hentries
    refine ⟨by omega, by omega, by omega, fun other hother hheld => ?_⟩
    have hnext := hgrows (cluster - 2) (other - 2) options.sectorsPerCluster (by omega)
    have hend := hgrows (other - 2) clusters options.sectorsPerCluster (by omega)
    omega

theorem areas_apart_default :
    let g : Geometry := ⟨70032, 1, 32, 2, 547, 68906, 2⟩
    geometryFor 70032 defaultOptions = .ok g ∧ g.clusterSector g.lastCluster + 1 ≤ 70032 := by
  have hok : geometryFor 70032 defaultOptions = .ok ⟨70032, 1, 32, 2, 547, 68906, 2⟩ := by
    decide +kernel
  exact ⟨hok, ((areas_apart 70032 (by decide) defaultOptions _ hok).2 68907 (by decide)).2.2.1⟩

end Audhsos.Fat
