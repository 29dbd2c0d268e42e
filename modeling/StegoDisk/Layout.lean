import StegoDisk.RoundTrip

/-!
The layout of the storage: the place of every carrier in the list, its subkey and its offset.
The comparator looks at the lower-cased name of a file alone, so that the layout does not
depend on the order in which the files are enumerated exactly when no two carriers have one
name up to case.
-/
namespace StegoDisk
namespace CarrierFilesManager
open CarrierFile VirtualStorage Segments

variable {env : Environment} {sorting sorting' : Sorting} {localPermutation : Format → PermutationType} {e : Encoder}
  {select : File → Bool} {password : List UInt8} {m m' : CarrierFilesManager} {directory directory' : Directory}
  {entries entries' : List (File × Content)}

/-- Every selected file is a carrier file that its format accepts. -/
def Accepted (directory : Directory) : Prop := ∀ entry ∈ directory.entries, ∃ image, entry.2 = .ok image

/-- The carriers of accepted files do not depend on their order. -/
theorem foundCarriers_accepted (accepted : ∀ entry ∈ entries, ∃ image, entry.2 = .ok image) :
    foundCarriers localPermutation entries =
      (entries.flatMap fun entry =>
        match entry.2 with
        | .ok image => (createCarrierFile localPermutation entry.1 image).toList
        | .error _ => [],.ok ()) := by
  induction entries with
  | nil => rfl
  | cons entry rest ih =>
    obtain ⟨file,content⟩ := entry
    obtain ⟨image,rfl⟩ : ∃ image, content = .ok image := accepted _ List.mem_cons_self
    rw [foundCarriers,ih fun entry member => accepted entry (List.mem_cons_of_mem _ member)]
    rfl

/-- The carrier of a file, where it has one. -/
theorem mem_foundCarriers (accepted : ∀ entry ∈ entries, ∃ image, entry.2 = .ok image) {c : CarrierFile} :
    c ∈ (foundCarriers localPermutation entries).1 ↔
      ∃ image, (c.file,.ok image) ∈ entries ∧ createCarrierFile localPermutation c.file image = some c := by
  rw [foundCarriers_accepted accepted]
  simp only [List.mem_flatMap]
  constructor
  · rintro ⟨⟨file,content⟩,member,made⟩
    obtain ⟨image,rfl⟩ : ∃ image, content = .ok image := accepted _ member
    have made := Option.mem_toList.mp made
    obtain ⟨rfl,_⟩ := @createCarrierFile_created localPermutation [] _ _ _ made
    exact ⟨image,member,made⟩
  · rintro ⟨image,member,made⟩
    exact ⟨_,member,Option.mem_toList.mpr made⟩

/-- No two accepted files with some capacity have one name up to case. -/
def DistinctNames (select : File → Bool) (directory : Directory) : Prop :=
  ∀ (a b : File) (image image' : Image), (a,.ok image) ∈ directory.entries → (b,.ok image') ∈ directory.entries →
    select a = true → select b = true → 1 ≤ image.rawCapacity → 1 ≤ image'.rawCapacity →
    a.normalizedPath = b.normalizedPath → a = b

/-- The layout that a manager gives after `LoadDirectory` is the same as another one's: the files are in one
    order, and once the encoder is applied they have the same subkeys and offsets. -/
structure SameLayout (env : Environment) (e : Encoder) (m m' : CarrierFilesManager) : Prop where
  positions : m.carrierFiles.map CarrierFile.file = m'.carrierFiles.map CarrierFile.file
  shares : ∀ m₂ m₂' : CarrierFilesManager, (m.setEncoder e).applyEncoder env = (m₂,.ok ()) →
    (m'.setEncoder e).applyEncoder env = (m₂',.ok ()) → ∀ ref ref' n,
      (assignShares m₂.carrierFiles ref n).map (fun c => (c.file,c.subkey,c.virtualStorageOffset)) =
        (assignShares m₂'.carrierFiles ref' n).map fun c => (c.file,c.subkey,c.virtualStorageOffset)

/-! ### Sorting -/

theorem less_antisymm {a b : CarrierFile} (first : b.less a = false) (second : a.less b = false) :
    a.file.normalizedPath = b.file.normalizedPath := by
  simp only [CarrierFile.less,decide_eq_false_iff_not,List.not_lt] at first second
  exact List.le_antisymm first second

/-- Files with different names are sorted in one way. -/
theorem sort_eq {files files' : List CarrierFile} (perm : files.Perm files')
    (apart : ∀ a ∈ files, ∀ b ∈ files, a.file.normalizedPath = b.file.normalizedPath → a = b) :
    sorting.sort files = sorting'.sort files' := by
  have sorted := sorting.perm files
  have sorted' := (sorting'.perm files').trans perm.symm
  refine List.Perm.eq_of_pairwise ?_ (sorting.sorted files) (sorting'.sorted files') (sorted.trans sorted'.symm)
  intro a b member member' first second
  exact apart a (sorted.mem_iff.mp member) b (sorted'.mem_iff.mp member') (less_antisymm first second)

theorem sortedByName_iff {files : List CarrierFile} :
    SortedByName files ↔ (files.map fun c => c.file.normalizedPath).Pairwise fun x y => ¬ y < x := by
  rw [List.pairwise_map]
  simp only [SortedByName,CarrierFile.less,decide_eq_false_iff_not]
  rfl

open Classical in
/-- Two carriers of one name can be sorted either way. -/
theorem exists_swapped {files : List CarrierFile} (distinct : files.Nodup) {a b : CarrierFile} (here : a ∈ files)
    (there : b ∈ files) (same : a.file.normalizedPath = b.file.normalizedPath) (sorting : Sorting) :
    ∃ swapped : Sorting, swapped.sort files = (sorting.sort files).map (Equiv.swap a b) := by
  have name : ∀ c : CarrierFile, (Equiv.swap a b c).file.normalizedPath = c.file.normalizedPath := by
    intro c
    rw [Equiv.swap_apply_def]
    split
    · rename_i first
      rw [first,same]
    · split
      · rename_i second
        rw [second,same]
      · rfl
  have perm := sorting.perm files
  have kept : ((sorting.sort files).map (Equiv.swap a b)).Perm (sorting.sort files) := by
    have nodup : (sorting.sort files).Nodup := perm.nodup_iff.mpr distinct
    refine (List.perm_ext_iff_of_nodup (nodup.map (Equiv.swap a b).injective) nodup).mpr ?_
    intro c
    rw [List.mem_map_of_involutive (Equiv.swap_apply_self a b),Equiv.swap_apply_def]
    split
    · rename_i first
      rw [first]
      exact iff_of_true (perm.mem_iff.mpr there) (perm.mem_iff.mpr here)
    · split
      · rename_i second
        rw [second]
        exact iff_of_true (perm.mem_iff.mpr here) (perm.mem_iff.mpr there)
      · rfl
  have sorted : SortedByName ((sorting.sort files).map (Equiv.swap a b)) := by
    rw [sortedByName_iff,List.map_map]
    simp only [Function.comp_def,name]
    exact sortedByName_iff.mp (sorting.sorted files)
  refine ⟨⟨fun l => if l = files then (sorting.sort files).map (Equiv.swap a b) else sorting.sort l,?_,?_⟩,if_pos rfl⟩
  · intro l
    split
    · rename_i this
      rw [this]
      exact kept.trans perm
    · exact sorting.perm l
  · intro l
    split
    · exact sorted
    · exact sorting.sorted l

/-! ### The layout -/

/-- Managers with the same carriers after `LoadDirectory` have the same layout. -/
theorem SameLayout.of_carriers (carriers : m.carrierFiles = m'.carrierFiles) (hash : m.passwordHash = m'.passwordHash) :
    SameLayout env e m m' := by
  refine ⟨by rw [carriers],?_⟩
  intro m₂ m₂' applied applied' ref ref' n
  obtain ⟨cores,same⟩ := setEncoder_core m e
  obtain ⟨cores',same'⟩ := setEncoder_core m' e
  have alike : OpenedAlike (m.setEncoder e) (m'.setEncoder e) :=
    .of_core (by rw [cores,cores',carriers]) (by rw [same,same',hash])
  obtain ⟨_,accepts,_,rfl⟩ := (applyEncoder_eq_ok (setEncoder_holds m e)).mp applied
  obtain ⟨_,accepts',_,rfl⟩ := (applyEncoder_eq_ok (setEncoder_holds m' e)).mp applied'
  have plans := applied_shares accepts ref ref' n
  rw [alike.planned,← applied_shares accepts' ref' ref' n] at plans
  have shares := congrArg (List.map fun c : CarrierFile => (c.file,c.subkey,c.virtualStorageOffset)) plans
  rw [List.map_map,List.map_map] at shares
  exact shares

private theorem found_apart (accepted : Accepted directory) (distinct : DistinctNames select directory) :
    ∀ a ∈ (foundCarriers localPermutation (directory.entries.filter fun entry => select entry.1)).1,
      ∀ b ∈ (foundCarriers localPermutation (directory.entries.filter fun entry => select entry.1)).1,
        a.file.normalizedPath = b.file.normalizedPath → a = b := by
  have held : ∀ entry ∈ directory.entries.filter fun entry => select entry.1, ∃ image, entry.2 = .ok image :=
    fun entry member => accepted entry (List.mem_of_mem_filter member)
  have large : ∀ {file : File} {image : Image} {c : CarrierFile}, createCarrierFile localPermutation file image = some c →
      1 ≤ image.rawCapacity := by
    intro file image c made
    unfold createCarrierFile at made
    split at made
    · simp at made
    · omega
  intro a here b there same
  obtain ⟨image,member,made⟩ := (mem_foundCarriers held).mp here
  obtain ⟨image',member',made'⟩ := (mem_foundCarriers held).mp there
  obtain ⟨entry,chosen⟩ := List.mem_filter.mp member
  obtain ⟨entry',chosen'⟩ := List.mem_filter.mp member'
  have name : a.file = b.file :=
    distinct a.file b.file image image' entry entry' chosen chosen' (large made) (large made') same
  rw [name] at entry made
  obtain rfl : image = image' := by
    have first := Directory.image_eq_ok.mpr entry
    have second := Directory.image_eq_ok.mpr entry'
    exact Except.ok.inj (first.symm.trans second)
  exact Option.some.inj (made.symm.trans made')

theorem found_distinct (directory : Directory) :
    (foundCarriers localPermutation (directory.entries.filter fun entry => select entry.1)).1.Nodup := by
  have names : ((directory.entries.filter fun entry => select entry.1).map Prod.fst).Sublist (directory.entries.map Prod.fst) :=
    List.filter_sublist.map Prod.fst
  exact ((directory.distinct.sublist names).sublist (foundCarriers_created _).2).of_map

/-- `LoadDirectory` of accepted files returns. -/
theorem openDirectory_accepted (accepted : Accepted directory) (m : CarrierFilesManager) :
    (openDirectory env sorting localPermutation select password m directory).1.carrierFiles =
      sorting.sort (foundCarriers localPermutation (directory.entries.filter fun entry => select entry.1)).1 := by
  refine (openDirectory_eq_ok (eq_of_returns ?_)).1
  unfold openDirectory loadDirectory
  rw [foundCarriers_accepted fun entry member => accepted entry (List.mem_of_mem_filter member)]

/-- Whatever the order in which accepted files are enumerated, and however carriers of which none is
    less are sorted, the layout is the same: exactly when their names differ up to case. -/
theorem layout_iff (env : Environment) (localPermutation : Format → PermutationType) (e : Encoder) (select : File → Bool)
    (password : List UInt8) (directory : Directory) (accepted : Accepted directory) :
    (∀ (directory' : Directory) (sorting sorting' : Sorting) (m m' : CarrierFilesManager),
      directory'.entries.Perm directory.entries →
        SameLayout env e (openDirectory env sorting localPermutation select password m directory).1
          (openDirectory env sorting' localPermutation select password m' directory').1) ↔
      DistinctNames select directory := by
  have held : ∀ entry ∈ directory.entries.filter fun entry => select entry.1, ∃ image, entry.2 = .ok image :=
    fun entry member => accepted entry (List.mem_of_mem_filter member)
  constructor
  · intro same a b image image' entry entry' chosen chosen' large large' name
    have found : ∀ (file : File) (image : Image), (file,.ok image) ∈ directory.entries → select file = true →
        1 ≤ image.rawCapacity → ∃ c ∈ (foundCarriers localPermutation
          (directory.entries.filter fun entry => select entry.1)).1, c.file = file := by
      intro file image entry chosen large
      exact ⟨⟨file,image.rawCapacity,.fresh (localPermutation image.format),none,0,0,0,0,0,0,false,none,none⟩,
        (mem_foundCarriers held).mpr ⟨image,List.mem_filter.mpr ⟨entry,chosen⟩,if_neg (Nat.not_lt.mpr large)⟩,rfl⟩
    obtain ⟨c,here,rfl⟩ := found a image entry chosen large
    obtain ⟨d,there,rfl⟩ := found b image' entry' chosen' large'
    -- the two carriers change places in the other order
    obtain ⟨swapped,other⟩ := exists_swapped (found_distinct directory) here there name .byInsertion
    have positions := (same directory .byInsertion swapped {} {} (.refl _)).positions
    rw [openDirectory_accepted accepted,openDirectory_accepted accepted,other,List.map_map] at positions
    have moved := List.map_inj_left.mp positions c ((Sorting.byInsertion.perm _).mem_iff.mpr here)
    simpa using moved
  · intro distinct directory' sorting sorting' m m' perm
    have accepted' : Accepted directory' := fun entry member => accepted entry (perm.mem_iff.mp member)
    have hash := (@openDirectory_carriers env sorting localPermutation select password m directory).2
    have hash' := (@openDirectory_carriers env sorting' localPermutation select password m' directory').2
    refine .of_carriers ?_ (hash.trans hash'.symm)
    rw [openDirectory_accepted accepted,openDirectory_accepted accepted']
    refine sort_eq ?_ (found_apart accepted distinct)
    have filtered := perm.filter fun entry => select entry.1
    rw [foundCarriers_accepted held,
      foundCarriers_accepted fun entry member => accepted' entry (List.mem_of_mem_filter member)]
    exact (filtered.flatMap_right _).symm

/-- The files in the opposite order. -/
def reversed (directory : Directory) : Directory where
  entries := directory.entries.reverse
  distinct := by
    rw [List.map_reverse,List.nodup_reverse]
    exact directory.distinct

/-- An image in each of two directories, with names of their own or with one name. -/
def twoFiles (first second : List UInt8) : Directory where
  entries := [(⟨[120],first⟩,.ok (.png (List.replicate 273 0))),(⟨[121],second⟩,.ok (.png (List.replicate 273 0)))]
  distinct := by
    have differ : (⟨[120],first⟩ : File) ≠ ⟨[121],second⟩ := by simp
    exact List.nodup_cons.mpr ⟨fun same => differ (List.mem_singleton.mp same),List.nodup_singleton _⟩

/-- The manager after the files were enumerated and sorted. -/
def enumerated (directory : Directory) : CarrierFilesManager :=
  (openDirectory Permutation.twoPrimes .byInsertion (fun _ => .identity) (fun _ => true) [] {} directory).1

private theorem twoFiles_accepted (first second : List UInt8) : Accepted (twoFiles first second) := by
  intro entry member
  rcases List.mem_pair.mp member with rfl | rfl
  · exact ⟨_,rfl⟩
  · exact ⟨_,rfl⟩

/-- The names a.png and b.png. -/
def nameA : List UInt8 := [97,46,112,110,103]
def nameB : List UInt8 := [98,46,112,110,103]

/-- Files a.png and b.png are laid out in one way. -/
theorem layout_two : SameLayout Permutation.twoPrimes (.lsb .default) (enumerated (twoFiles nameA nameB))
    (enumerated (reversed (twoFiles nameA nameB))) := by
  refine (layout_iff Permutation.twoPrimes (fun _ => .identity) (.lsb .default) (fun _ => true) [] (twoFiles nameA nameB)
    (twoFiles_accepted nameA nameB)).mpr ?_ (reversed (twoFiles nameA nameB)) .byInsertion .byInsertion {} {}
    (List.reverse_perm _)
  intro a b image image' entry entry' _ _ _ _ same
  rcases List.mem_pair.mp entry with first | first <;> rcases List.mem_pair.mp entry' with second | second
  all_goals
    obtain ⟨rfl,_⟩ := Prod.mk.inj first
    obtain ⟨rfl,_⟩ := Prod.mk.inj second
    revert same
    decide

/-- Two files with the name a.png change places when they are enumerated in the opposite order. -/
theorem not_layout_same : ¬ SameLayout Permutation.twoPrimes (.lsb .default) (enumerated (twoFiles nameA nameA))
    (enumerated (reversed (twoFiles nameA nameA))) := by
  intro same
  have positions := same.positions
  revert positions
  decide +kernel

end CarrierFilesManager
end StegoDisk
