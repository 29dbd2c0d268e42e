import Mathlib.Algebra.BigOperators.Fin
import StegoDisk.Alterations
import StegoDisk.DiskRefinement
import StegoDisk.SavedAgain

/-!
How much a disk in image files alters them. Every byte of the storage is carried by one block, so that a save alters no more
bits of all images together than differ between the bytes that they hold and those that are saved, and nothing but these
bits; over sessions this adds up.
-/
namespace StegoDisk
open Loops Bits

namespace VirtualStorage

variable {s : VirtualStorage} {n : Nat} {f : Nat → Nat}

theorem Mapped.byteAt_beyond (mapped : s.Mapped n f) {p : Nat} (beyond : n ≤ p) : s.byteAt p = 0 := by
  simp [byteAt,CarrierFile.readOrZero,mapped.readByte_beyond beyond,Except.toOption]

end VirtualStorage

/-- The data of a block are no longer than the block. -/
theorem Encoder.dataBlockSize_le (e : Encoder) : e.dataBlockSize ≤ e.codewordBlockSize := by
  cases e with
  | lsb e => exact le_rfl
  | hamming e =>
    have range := e.inRange
    have bits := e.dataBits
    have fewer : e.codewordsInBlock * e.parityBits ≤ e.codewordsInBlock * 8 := Nat.mul_le_mul_left _ range.2
    have more : e.codewordsInBlock ≤ e.codewordBufferSize * e.codewordsInBlock :=
      Nat.le_mul_of_pos_left _ (by simp [HammingEncoder.codewordBufferSize])
    show e.dataBlockSize ≤ e.codewordBufferSize * e.codewordsInBlock
    omega

namespace CarrierFile

/-- A bit of the data of a block. -/
theorem high_stored (c : CarrierFile) (s : VirtualStorage) (b : Nat) {j : Nat} (inside : j < 8 * c.dataBlockSize) :
    high (c.stored s b) j = (s.byteAt (c.position b (j / 8))).toNat.testBit (7 - j % 8) := by
  have byte : j / 8 < c.dataBlockSize := by omega
  simp [high,stored,List.getD_eq_getElem?_getD,byte]

end CarrierFile

/-! ### Directories -/

/-- How many bits differ in what a file holds. -/
def alteredContent : Content → Content → Nat
  | .ok image,.ok image' => (image.altered image').card
  | _,_ => 0

namespace Directory

variable {directory directory' : Directory} {file : File} {before image : Image}

/-- The files without the bits that hide data. -/
def covers (directory : Directory) : List (File × Except Exception Image) :=
  directory.entries.map fun entry => (entry.1,entry.2.map Image.cover)

/-- How many bits differ in all files. -/
def altered (directory directory' : Directory) : Nat :=
  (List.zipWith (fun entry entry' => alteredContent entry.2 entry'.2) directory.entries directory'.entries).sum

theorem alteredContent_self (content : Content) : alteredContent content content = 0 := by
  cases content with
  | error failure => rfl
  | ok image => simp [alteredContent,Image.altered_self]

theorem altered_self (directory : Directory) : directory.altered directory = 0 := by
  unfold altered
  induction directory.entries with
  | nil => rfl
  | cons entry rest ih => rw [List.zipWith_cons_cons,List.sum_cons,ih,alteredContent_self]

/-- Two changes after each other alter no more bits than both of them. -/
theorem altered_le {a b c : Directory} (first : a.SameFiles b) (second : b.SameFiles c) :
    a.altered c ≤ a.altered b + b.altered c := by
  unfold SameFiles at first second
  unfold altered
  generalize a.entries = xs,b.entries = ys,c.entries = zs at first second ⊢
  induction first generalizing zs with
  | nil => cases second with | nil => exact le_rfl
  | cons alike _ ih =>
    cases second with
    | cons alike' rest =>
      have later := ih _ rest
      simp only [List.zipWith_cons_cons,List.sum_cons]
      have here : ∀ {x y z : File × Content}, Alike x y → Alike y z →
          alteredContent x.2 z.2 ≤ alteredContent x.2 y.2 + alteredContent y.2 z.2 := by
        intro x y z first second
        cases first with
        | rejected => exact Nat.zero_le _
        | accepted file same =>
          cases second with
          | accepted _ _ => exact Image.card_altered_le same.bits
      have now := here alike alike'
      omega

/-- Writing one file alters as many bits as writing its image. -/
theorem altered_write (held : directory.image file = .ok before) :
    directory.altered (directory.write file image) = (before.altered image).card := by
  have there := image_eq_ok.mp held
  have distinct := directory.distinct
  unfold altered write
  dsimp only
  generalize directory.entries = entries at there distinct ⊢
  have others : ∀ entries : List (File × Content), file ∉ entries.map Prod.fst →
      (List.zipWith (fun entry entry' => alteredContent entry.2 entry'.2) entries
        (entries.map fun entry => if entry.1 = file then (entry.1,.ok image) else entry)).sum = 0 := by
    intro entries absent
    induction entries with
    | nil => rfl
    | cons entry rest ih =>
      rw [List.map_cons,List.mem_cons,not_or] at absent
      rw [List.map_cons,List.zipWith_cons_cons,List.sum_cons,ih absent.2,if_neg (Ne.symm absent.1),alteredContent_self]
  induction entries with
  | nil => cases there
  | cons entry rest ih =>
    rw [List.map_cons,List.nodup_cons] at distinct
    rw [List.map_cons,List.zipWith_cons_cons,List.sum_cons]
    rcases List.mem_cons.mp there with rfl | later
    · rw [others rest distinct.1,if_pos rfl]
      rfl
    · have differ : entry.1 ≠ file := by
        rintro rfl
        exact distinct.1 (List.mem_map.mpr ⟨_,later,rfl⟩)
      rw [if_neg differ,alteredContent_self,ih later distinct.2,Nat.zero_add]

/-- Writing an image with the cover of the one before leaves the covers. -/
theorem covers_write (held : directory.image file = .ok before) (same : image.cover = before.cover) :
    (directory.write file image).covers = directory.covers := by
  unfold covers write
  rw [List.map_map]
  refine List.map_congr_left fun entry member => ?_
  simp only [Function.comp_apply]
  split
  · rename_i here
    obtain rfl : entry = (file,.ok before) := List.inj_on_of_nodup_map directory.distinct member (image_eq_ok.mp held) here
    simp only [Except.map,same]
  · rfl

end Directory

/-! ### Saves -/

namespace CarrierFilesManager
open CarrierFile VirtualStorage HammingEncoder

variable {env : Environment} {e : Encoder} {g : PermutationType} {m : CarrierFilesManager} {ref n : Nat}
  {s s₀ : VirtualStorage} {f : Nat → Nat} {directory directory' : Directory} {files : List CarrierFile}

/-- Every byte of the storage is carried once. -/
def Exclusive (files : List CarrierFile) (n : Nat) : Prop :=
  ∀ x y p, Accesses files x p → Accesses files y p → p < n → x = y

/-- How many bits differ in the data that the blocks of the carriers have of two storages. -/
def differences (files : List CarrierFile) (s₀ s : VirtualStorage) : Nat :=
  (files.map fun c => ∑ b ∈ Finset.range c.blocksUsed, distance (c.stored s₀ b) (c.stored s b)).sum

/-- They are no more than those in which the storages differ. -/
theorem Exclusive.differences_le (exclusive : Exclusive files n) (mapped₀ : s₀.Mapped n f) (mapped : s.Mapped n f)
    {data₀ data : MemoryBuffer} (holds₀ : s₀.data = some data₀) (holds : s.data = some data) :
    differences files s₀ s ≤ distance data₀ data := by
  obtain ⟨held,there,length⟩ := mapped₀.holds
  obtain rfl : data₀ = held := Option.some.inj (holds₀.symm.trans there)
  have counted : differences files s₀ s = (Finset.univ.sigma fun k : Fin files.length =>
      (Finset.range files[k].blocksUsed).sigma fun b =>
        differing (files[k].stored s₀ b) (files[k].stored s b) 0 (8 * (files[k].stored s₀ b).length)).card := by
    simp only [Finset.card_sigma]
    exact (Fin.sum_univ_fun_getElem files fun c =>
      ∑ b ∈ Finset.range c.blocksUsed, distance (c.stored s₀ b) (c.stored s b)).symm
  -- a bit that differs has its place in the storage
  have place : ∀ (k : Fin files.length) (b j : Nat), b < files[k].blocksUsed →
      j ∈ differing (files[k].stored s₀ b) (files[k].stored s b) 0 (8 * (files[k].stored s₀ b).length) →
      Accesses files (k,b,j / 8) (files[k].position b (j / 8)) ∧ files[k].position b (j / 8) < n ∧
        8 * f (files[k].position b (j / 8)) + j % 8 ∈ differing data₀ data 0 (8 * data₀.length) := by
    intro k b j used differ
    obtain ⟨inside,differ⟩ := mem_differing.mp differ
    simp only [stored,List.length_map,List.length_range] at inside
    rw [Nat.zero_add,high_stored _ _ _ inside,high_stored _ _ _ inside] at differ
    have below : files[k].position b (j / 8) < n := by
      by_contra beyond
      rw [mapped₀.byteAt_beyond (by omega),mapped.byteAt_beyond (by omega)] at differ
      exact differ rfl
    have far := mapped.permutes.lt below
    refine ⟨⟨files[k],by simp,used,show j / 8 < _ by omega,rfl⟩,below,mem_differing.mpr ⟨by omega,?_⟩⟩
    rw [mapped₀.byteAt_eq holds₀ below,mapped.byteAt_eq holds below] at differ
    simp only [high,Nat.zero_add]
    rw [show (8 * f (files[k].position b (j / 8)) + j % 8) / 8 = f (files[k].position b (j / 8)) by omega,
      show (8 * f (files[k].position b (j / 8)) + j % 8) % 8 = j % 8 by omega]
    exact differ
  rw [counted]
  refine Finset.card_le_card_of_injOn (fun x => 8 * f (files[x.1].position x.2.1 (x.2.2 / 8)) + x.2.2 % 8) ?_ ?_
  · rintro ⟨k,b,j⟩ member
    simp only [Finset.coe_sigma,Set.mem_sigma_iff,SetLike.mem_coe,Finset.mem_univ,Finset.mem_range,true_and] at member
    exact (place k b j member.1 member.2).2.2
  · rintro ⟨k,b,j⟩ member ⟨k',b',j'⟩ member' same
    simp only [Finset.coe_sigma,Set.mem_sigma_iff,SetLike.mem_coe,Finset.mem_univ,Finset.mem_range,true_and] at member member'
    obtain ⟨access,below,_⟩ := place k b j member.1 member.2
    obtain ⟨access',below',_⟩ := place k' b' j' member'.1 member'.2
    simp only at same
    have equal : files[k].position b (j / 8) = files[k'].position b' (j' / 8) :=
      mapped.permutes.inj below below' (by omega)
    rw [← equal] at access' same
    have one := exclusive _ _ _ access access' below
    simp only [Prod.mk.injEq] at one
    obtain ⟨first,rfl,byte⟩ := one
    obtain rfl := Fin.ext first
    obtain rfl : j = j' := by omega
    rfl

/-- Carriers of less than 2^32 bytes are whole blocks, so that no two of them carry the same byte. -/
theorem Attached.exclusive (attached : Attached env e g m ref s n f) (small : ∀ c ∈ m.carrierFiles, c.rawCapacity < 2 ^ 32) :
    Exclusive m.carrierFiles n := by
  have positive : ∀ c ∈ m.carrierFiles, 0 < c.rawCapacity := by
    intro c member
    obtain ⟨h,ready⟩ := attached.ready c member
    exact ready.prepared.positive
  have whole : ∀ c ∈ m.carrierFiles, c.dataBlockSize ∣ c.capacity := by
    intro c member
    obtain ⟨h,ready⟩ := attached.ready c member
    obtain ⟨_,_,_,capacity⟩ := ready.prepared.sizes
    have fits := ready.prepared.blocks_le ready.initializes
    have enough := ready.enough
    have kept : word64 (c.rawCapacity * 8) ≤ c.rawCapacity * 8 := Nat.mod_le _ _
    have room := small c member
    have least := Nat.mul_le_mul_left c.blockCount e.dataBlockSize_le
    rw [capacity,ready.prepared.dataBlockSize,word32_of_lt (by omega)]
    exact Dvd.intro_left _ rfl
  have aligned : Aligned (m.planned env e) n := by
    intro k file here _
    have there : ((assignShares (m.planned env e) 0 n).map plan)[k]? =
        some (file.addToVirtualStorage 0 (word64 (offset (m.planned env e) k)) (bytesUsed (m.planned env e) n k file)).plan := by
      rw [List.getElem?_map,assignShares_get,here]
      rfl
    rw [← attached.shares,List.getElem?_map] at there
    obtain ⟨c,found,same⟩ := Option.map_eq_some_iff.mp there
    have block := congrArg CarrierFile.dataBlockSize same
    have capacity := congrArg CarrierFile.capacity same
    simp only [plan,addToVirtualStorage] at block capacity
    rw [← block,← capacity]
    exact whole c (List.mem_of_getElem? found)
  intro x y p first second inside
  exact aligned.unique (planned_shaped attached.accepts positive) attached.mapped.fits
    (accesses_plan attached.shares first) (accesses_plan attached.shares second) inside

/-- Saving alters no more bits of the images than differ between the data of two storages, where the images hold the
    first one and the other one is saved. -/
theorem saveFiles_altered {storages : List VirtualStorage} (there : storages[ref]? = some s) (mapped : s.Mapped n f)
    (loaded : ∀ c ∈ files, c.fileLoaded = true ∧ c.virtualStorage = some ref) (ready : ∀ c ∈ files, ∃ h, Ready env e c h)
    (used : ∀ c ∈ files, 0 < c.blocksUsed) (stored : Stored e directory files s₀)
    (distinct : (files.map CarrierFile.file).Nodup) :
    (saveFiles env storages files directory).1.2.covers = directory.covers ∧
      directory.altered (saveFiles env storages files directory).1.2 ≤ differences files s₀ s := by
  induction files generalizing directory with
  | nil => exact ⟨rfl,(Directory.altered_self directory).le⟩
  | cons c rest ih =>
    obtain ⟨image,held,opens,decodes⟩ := stored c List.mem_cons_self
    obtain ⟨isLoaded,refers⟩ := loaded c List.mem_cons_self
    obtain ⟨h,isReady⟩ := ready c List.mem_cons_self
    obtain ⟨image',saved,shape,_⟩ := saveFile_ok isLoaded isReady (used c List.mem_cons_self) opens mapped
    obtain ⟨cover,few⟩ := saveFile_altered isLoaded isReady opens mapped decodes saved
    rw [List.map_cons,List.nodup_cons] at distinct
    have apart : ∀ d ∈ rest, d.file ≠ c.file := fun d member same => distinct.1 (same ▸ List.mem_map_of_mem member)
    obtain ⟨covers,fewer⟩ := @ih (directory.write c.file image') (fun d member => loaded d (List.mem_cons_of_mem _ member))
      (fun d member => ready d (List.mem_cons_of_mem _ member)) (fun d member => used d (List.mem_cons_of_mem _ member))
      (fun d member => by
        rw [Directory.image_write_other (apart d member)]
        exact stored d (List.mem_cons_of_mem _ member)) distinct.2
    simp only [saveFiles,held,refers,Option.bind_some,there,Option.getD_some,saved]
    refine ⟨covers.trans (Directory.covers_write held cover),?_⟩
    have first := Directory.SameFiles.write held shape
    have later := @saveFiles_sameFiles env storages rest (directory.write c.file image')
    calc directory.altered (saveFiles env storages rest (directory.write c.file image')).1.2
        ≤ directory.altered (directory.write c.file image') +
            (directory.write c.file image').altered (saveFiles env storages rest (directory.write c.file image')).1.2 :=
          Directory.altered_le first.symm later.symm
      _ ≤ differences (c::rest) s₀ s := by
          rw [Directory.altered_write held]
          simp only [differences,List.map_cons,List.sum_cons]
          exact Nat.add_le_add few fewer

/-- No more bits differ than in front of some place, and those behind it. -/
theorem distance_le_take {xs ys : List UInt8} (k : Nat) (behind : k ≤ xs.length) :
    distance xs ys ≤ distance (xs.take k) (ys.take k) + 8 * (xs.length - k) := by
  have split : differing xs ys 0 (8 * xs.length) ⊆
      differing (xs.take k) (ys.take k) 0 (8 * (xs.take k).length) ∪ Finset.Ico (8 * k) (8 * xs.length) := by
    intro j differ
    obtain ⟨inside,differ⟩ := mem_differing.mp differ
    rw [Nat.zero_add] at differ
    rw [Finset.mem_union,mem_differing,Finset.mem_Ico,List.length_take,Nat.zero_add]
    rcases Nat.lt_or_ge j (8 * k) with front | back
    · refine .inl ⟨by omega,?_⟩
      rwa [high_take xs front,high_take ys front]
    · exact .inr ⟨back,inside⟩
  refine (Finset.card_le_card split).trans ((Finset.card_union_le _ _).trans ?_)
  rw [Nat.card_Ico,distance]
  omega

theorem OpenedAlike.small {m' : CarrierFilesManager} (alike : OpenedAlike m m')
    (small : ∀ c ∈ m'.carrierFiles, c.rawCapacity < 2 ^ 32) : ∀ c ∈ m.carrierFiles, c.rawCapacity < 2 ^ 32 := by
  intro c member
  have created : c.blank ∈ m'.blanks := by
    rw [← alike.blanks]
    exact List.mem_map_of_mem member
  obtain ⟨c',member',equal⟩ := List.mem_map.mp created
  have raw := congrArg CarrierFile.rawCapacity equal
  simp only [blank] at raw
  rw [← raw]
  exact small c' member'

/-- What a save of a manager alters, where the images hold a storage of the same positions. -/
theorem Attached.saveVirtualStorage_altered {storages : List VirtualStorage} (attached : Attached env e g m ref s n f)
    (there : storages[ref]? = some s) (used : ∀ c ∈ m.carrierFiles, 0 < c.blocksUsed)
    (small : ∀ c ∈ m.carrierFiles, c.rawCapacity < 2 ^ 32) (distinct : (m.carrierFiles.map CarrierFile.file).Nodup)
    (narrow : word32 (n - 32) < 2 ^ 31) (stored : Stored e directory m.carrierFiles s₀)
    (applied₀ : s₀.AppliedAs env g (m.total env e) (m.key env).val) (mapped₀ : s₀.Mapped n f) :
    (m.saveVirtualStorage env storages directory).1.2.2.covers = directory.covers ∧
      directory.altered (m.saveVirtualStorage env storages directory).1.2.2 ≤ distance s₀.users s.users + 8 * 32 := by
  obtain ⟨data,written,mapped,_,reads⟩ := @writeChecksum_ok _ _ _ _ _ _ _ env.keccak attached.applied attached.mapped narrow
  obtain ⟨inside,_⟩ := List.getElem?_eq_some_iff.mp there
  obtain ⟨covers,few⟩ := saveFiles_altered
    (List.getElem?_set_self inside : (storages.set ref { s with data := data })[ref]? = some { s with data := data })
    mapped attached.loaded attached.ready used stored distinct
  obtain ⟨data₀,holds₀,length₀,usable₀,large⟩ := applied₀.parts mapped₀
  obtain ⟨data',holds,length,usable,_⟩ := (attached.applied.replace data).parts mapped
  have least := (attached.exclusive small).differences_le mapped₀ mapped holds₀ holds
  have users_ : s.users = data'.take (n - 32) := by
    rw [← attached.applied.users_eq attached.mapped mapped reads]
    simp only [users] at holds usable ⊢
    rw [holds,usable,Option.getD_some]
  have users₀ : s₀.users = data₀.take (n - 32) := by
    rw [users,holds₀,usable₀,Option.getD_some]
  have saved : (m.saveVirtualStorage env storages directory).1.2.2 =
      (saveFiles env (storages.set ref { s with data := data }) m.carrierFiles directory).1.2 := by
    simp only [saveVirtualStorage,attached.refers,there,written]
  have whole := @distance_le_take _ data' (n - 32) (show n - 32 ≤ data₀.length by omega)
  rw [← users₀,← users_] at whole
  rw [saved]
  exact ⟨covers,by omega⟩

end CarrierFilesManager

/-! ### Sessions -/

namespace Disk
open HammingEncoder

variable {size : Nat}

/-- The bits in which a save changes what is kept, with those of a checksum. -/
def cost (d : Disk size) : Request → Nat
  | .save =>
    match d.working with
    | some bytes => if d.opened ∧ d.loaded then distance d.kept.val bytes.val + 8 * 32 else 0
    | none => 0
  | _ => 0

def costs (d : Disk size) : List Request → Nat
  | [] => 0
  | request::rest => d.cost request + costs (d.step request) rest

/-- What the saves of all sessions change. -/
def sessionCosts (d : Disk size) : List (List Request) → Nat
  | [] => 0
  | requests::rest => d.restart.costs requests + sessionCosts (d.restart.after requests) rest

end Disk

namespace StegoStorage
open CarrierFilesManager CarrierFile VirtualStorage HammingEncoder

variable {platform : Platform} {config : StegoConfig} {select : File → Bool} {password : List UInt8}
  {directory directory' : Directory} {m₀ m₁ : CarrierFilesManager} {size : Nat} {s : StegoStorage} {d : Disk size}

/-- The images are those that a save of some bytes has left. -/
def Holds (platform : Platform) (config : StegoConfig) (m₀ : CarrierFilesManager) (directory : Directory)
    (bytes : List UInt8) : Prop :=
  ∃ m ref s n f, Attached platform.env (Encoder.ofType config.encoder) config.globalPerm m ref s n f ∧ OpenedAlike m m₀ ∧
    Stored (Encoder.ofType config.encoder) directory m.carrierFiles s ∧ s.users = bytes

theorem Holds.contains {bytes : List UInt8} (holds : Holds platform config m₀ directory bytes) :
    Contains platform config m₀ directory bytes := by
  obtain ⟨m,ref,s,n,f,attached,alike,stored,same⟩ := holds
  exact ⟨m,ref,s,n,f,attached,alike,stored.reflects,same⟩

theorem Holds.alike {bytes : List UInt8} (holds : Holds platform config m₀ directory bytes) (same : OpenedAlike m₀ m₁) :
    Holds platform config m₁ directory bytes := by
  obtain ⟨m,ref,s,n,f,attached,alike,stored,users_⟩ := holds
  exact ⟨m,ref,s,n,f,attached,alike.trans same,stored,users_⟩

/-- A save of carriers that are loaded leaves its bytes, and alters no more than differs from what the images held. -/
theorem Simulates.save_altered (simulates : Simulates platform config select password directory m₀ s d)
    (serves : Serves platform config select password directory m₀ size) {bytes : Bytes size}
    (working : d.working = some bytes) (loaded : d.loaded = true) :
    Holds platform config m₀ (s.save platform).1.directory bytes.val ∧
      ((∀ c ∈ m₀.carrierFiles, c.rawCapacity < 2 ^ 32) → Holds platform config m₀ s.directory d.kept.val →
        (s.save platform).1.directory.covers = s.directory.covers ∧
          s.directory.altered (s.save platform).1.directory ≤ distance d.kept.val bytes.val + 8 * 32) := by
  obtain ⟨opened,_,all⟩ := simulates.held loaded
  have alike := simulates.alike serves (simulates.opened.trans opened)
  obtain ⟨ref,storage,f,holds,refers,there,_,_,same⟩ := simulates.works bytes working
  obtain ⟨ref',storage',n,f',holds',there',attached,openable⟩ :=
    simulates.kept.attached (alike.symm.nonempty serves.some_) all
  obtain rfl := Option.some.inj (holds.symm.trans holds')
  obtain rfl := Option.some.inj (there.symm.trans there')
  have applied := attached.applied
  rw [alike.total,alike.key] at applied
  obtain rfl := serves.size_eq applied attached.mapped
  have used : ∀ c ∈ s.manager.carrierFiles, 0 < c.blocksUsed :=
    used_of_plan attached.shares.symm (by rw [alike.planned]; exact serves.used)
  have distinct : (s.manager.carrierFiles.map CarrierFile.file).Nodup := by
    rw [alike.names]
    exact (openDirectory_eq_ok serves.opened).2
  have narrow : word32 (size + 32 - 32) < 2 ^ 31 := by rw [Nat.add_sub_cancel]; exact serves.narrow
  obtain ⟨directory',data,saved,attached',stored,_,_,reads⟩ :=
    attached.saveVirtualStorage_ok there used openable distinct narrow
  have result : (s.save platform).1.directory = directory' := by
    simp only [StegoStorage.save,simulates.opened.trans opened,holds,saved,Bool.true_eq_false,if_false,Option.isNone_some,
      Bool.false_eq_true]
  rw [result]
  refine ⟨⟨s.manager,ref,_,_,f',attached',alike,stored,
    (attached.applied.users_eq attached.mapped attached'.mapped reads).trans same⟩,?_⟩
  rintro small ⟨m,ref₀,s₀,n₀,f₀,attached₀,alike₀,stored₀,users₀⟩
  have alike₁ := alike₀.trans alike.symm
  have applied₀ := attached₀.applied
  rw [alike₁.total,alike₁.key] at applied₀
  -- the manager at work is attached to what the images hold as it is to its storage
  have mapped₀ := attached.applied.mapped applied₀ attached.mapped attached₀.mapped
  have frame : s₀ = { storage with data := s₀.data } := attached.applied.same applied₀
  have again : Attached platform.env (Encoder.ofType config.encoder) config.globalPerm s.manager ref s₀ (size + 32) f' := by
    rw [frame] at mapped₀ ⊢
    exact attached.replace mapped₀
  have kept := attached.saveVirtualStorage_altered there used (alike.small small) distinct narrow
    (attached₀.stored_alike again alike₁ stored₀) applied₀ mapped₀
  rw [saved,users₀,same] at kept
  exact kept

/-- A save of carriers that are not loaded writes no file. -/
theorem save_unloaded_directory (some_ : s.manager.carrierFiles ≠ [])
    (fresh : ∀ c ∈ s.manager.carrierFiles, c.fileLoaded = false) (openable : Openable s.directory s.manager.carrierFiles) :
    (s.save platform).1.directory = s.directory := by
  rcases save_eq platform s with ⟨_,same⟩ | ⟨_,_,m,storages,directory',result,ran,same⟩
  · rw [same]
  · rw [same]
    rcases @saveVirtualStorage_cases platform.env s.manager s.storages s.directory with
      ⟨failure,refused⟩ | ⟨ref,storage,storage',_,_,_,outcome⟩
    · rw [refused] at ran
      exact (congrArg (fun after => after.1.2.2) ran).symm
    · rw [outcome,saveFiles_unloaded some_ fresh openable] at ran
      exact (congrArg (fun after => after.1.2.2) ran).symm

theorem write_directory (s : StegoStorage) (offset : Nat) (source : List UInt8) :
    (s.write offset source).1.directory = s.directory := by
  rcases write_eq s offset source with same | ⟨_,_,_,_,_,_,same⟩ <;> rw [same]

theorem load_directory (platform : Platform) (s : StegoStorage) : (s.load platform).1.directory = s.directory := by
  rcases load_eq platform s with ⟨_,_,same⟩ | ⟨_,_,⟨_,_,_,same⟩ | ⟨_,_,_,_,_,_,same⟩⟩ <;> rw [same]

/-- What one request alters. -/
theorem Simulates.step_altered (simulates : Simulates platform config select password directory m₀ s d)
    (serves : Serves platform config select password directory m₀ size) (small : ∀ c ∈ m₀.carrierFiles, c.rawCapacity < 2 ^ 32)
    (holds : Holds platform config m₀ s.directory d.kept.val) (request : Disk.Request) :
    Holds platform config m₀ (StegoStorage.step platform s (opOf select password request)).directory (d.step request).kept.val ∧
      (StegoStorage.step platform s (opOf select password request)).directory.covers = s.directory.covers ∧
      s.directory.altered (StegoStorage.step platform s (opOf select password request)).directory ≤ d.cost request := by
  have still : (StegoStorage.step platform s (opOf select password request)).directory = s.directory →
      (d.step request).kept = d.kept → Holds platform config m₀
          (StegoStorage.step platform s (opOf select password request)).directory (d.step request).kept.val ∧
        (StegoStorage.step platform s (opOf select password request)).directory.covers = s.directory.covers ∧
        s.directory.altered (StegoStorage.step platform s (opOf select password request)).directory ≤ d.cost request := by
    intro same kept
    rw [same,kept,Directory.altered_self]
    exact ⟨holds,rfl,Nat.zero_le _⟩
  cases request with
  | open_ => exact still (open_keeps platform s select password).2.2.2 rfl
  | load =>
    refine still (load_directory platform s) ?_
    simp only [Disk.step,Disk.perform]
    split <;> rfl
  | read offset length =>
    refine still rfl ?_
    simp only [Disk.step,Disk.perform]
    split
    · rfl
    · split <;> rfl
  | write offset source =>
    refine still (write_directory s offset source) ?_
    simp only [Disk.step,Disk.perform]
    split
    · rfl
    · split <;> rfl
  | getSize => exact still rfl rfl
  | save =>
    cases opened : d.opened with
    | false =>
      have refused : s.save platform = (s,.error (.thrown (.invalidState .saveStegoStrorage .storage .notOpened))) := by
        rw [StegoStorage.save,if_pos (simulates.opened.trans opened)]
      exact still (congrArg (fun after => after.1.directory) refused) (by simp [Disk.step,Disk.perform,opened])
    | true =>
      cases working : d.working with
      | none =>
        have refused : s.save platform = (s,.error (.thrown (.invalidState .saveStegoStrorage .storage .notLoaded))) := by
          simp [StegoStorage.save,simulates.opened.trans opened,simulates.absent working]
        exact still (congrArg (fun after => after.1.directory) refused) (by simp [Disk.step,Disk.perform,opened,working])
      | some bytes =>
        cases loaded : d.loaded with
        | false =>
          have alike := simulates.alike serves (simulates.opened.trans opened)
          exact still (save_unloaded_directory (alike.symm.nonempty serves.some_) (simulates.fresh loaded)
            ((serves.openable.sameFiles simulates.kept.files).blanks alike.blanks.symm))
            (by simp [Disk.step,Disk.perform,opened,working,loaded])
        | true =>
          obtain ⟨now,alters⟩ := simulates.save_altered serves working loaded
          have kept : (d.step .save).kept = bytes := by simp [Disk.step,Disk.perform,opened,working,loaded]
          have cost : d.cost .save = distance d.kept.val bytes.val + 8 * 32 := by
            simp [Disk.cost,opened,working,loaded]
          rw [kept,cost]
          exact ⟨now,alters small holds⟩

/-- What a run of one object alters. -/
theorem Simulates.run_altered (simulates : Simulates platform config select password directory m₀ s d)
    (serves : Serves platform config select password directory m₀ size) (small : ∀ c ∈ m₀.carrierFiles, c.rawCapacity < 2 ^ 32)
    (holds : Holds platform config m₀ s.directory d.kept.val) {requests : List Disk.Request}
    (proper : Runs.AllMeet Disk.step Disk.Proper d requests) :
    Holds platform config m₀ (after platform s (requests.map (opOf select password))).directory (d.after requests).kept.val ∧
      (after platform s (requests.map (opOf select password))).directory.covers = s.directory.covers ∧
      s.directory.altered (after platform s (requests.map (opOf select password))).directory ≤ d.costs requests := by
  induction requests generalizing s d with
  | nil => exact ⟨holds,rfl,(Directory.altered_self _).le⟩
  | cons request rest ih =>
    obtain ⟨next,_⟩ := simulates.step serves proper.1
    obtain ⟨holds',covers,few⟩ := simulates.step_altered serves small holds request
    obtain ⟨last,covers',fewer⟩ := ih next holds' proper.2
    obtain ⟨_,final⟩ := next.run serves proper.2
    refine ⟨last,covers'.trans covers,?_⟩
    exact (Directory.altered_le (simulates.kept.files.trans next.kept.files.symm)
      (next.kept.files.trans final.kept.files.symm)).trans (Nat.add_le_add few fewer)

/-- The directory that one object after another leaves. -/
def sessionsDirectory (platform : Platform) (config : StegoConfig) (select : File → Bool) (password : List UInt8)
    (directory : Directory) : List ((Nat → Nat → UInt8) × List Disk.Request) → Directory
  | [] => directory
  | (memory,requests)::rest =>
    sessionsDirectory platform config select password
      (after { platform with memory := memory } (configured config directory) (requests.map (opOf select password))).directory rest

theorem Serves.sessions_few (serves : Serves platform config select password directory m₀ size)
    (small : ∀ c ∈ m₀.carrierFiles, c.rawCapacity < 2 ^ 32) (holds : Holds platform config m₀ directory d.kept.val)
    {all : List ((Nat → Nat → UInt8) × List Disk.Request)} (proper : d.AllProper (all.map Prod.snd)) :
    (sessionsDirectory platform config select password directory all).SameFiles directory ∧
      (sessionsDirectory platform config select password directory all).covers = directory.covers ∧
      directory.altered (sessionsDirectory platform config select password directory all) ≤ d.sessionCosts (all.map Prod.snd) := by
  induction all generalizing directory m₀ d with
  | nil => exact ⟨.refl directory,rfl,(Directory.altered_self directory).le⟩
  | cons session rest ih =>
    obtain ⟨memory,requests⟩ := session
    obtain ⟨first,later⟩ := proper
    -- nothing that is needed depends on what new memory holds
    have serves' : Serves { platform with memory := memory } config select password directory m₀ size :=
      ⟨serves.opened,serves.some_,serves.accepts,serves.capacity,serves.applied,serves.used,serves.openable,serves.narrow⟩
    have holds' : Holds { platform with memory := memory } config m₀ directory d.kept.val := holds
    have restarted : Simulates { platform with memory := memory } config select password directory m₀
        (configured config directory) d.restart := Contains.restart holds'.contains
    obtain ⟨_,simulates⟩ := restarted.run serves' first
    obtain ⟨now,covers,few⟩ := restarted.run_altered serves' small holds' first
    have same := simulates.kept.files
    obtain ⟨m₁,serves₁,alike⟩ := serves.sameFiles same
    obtain ⟨same',covers',fewer⟩ := ih serves₁ (alike.symm.small small) (Holds.alike now alike) later
    refine ⟨same'.trans same,covers'.trans covers,?_⟩
    exact (Directory.altered_le same.symm same'.symm).trans (Nat.add_le_add few fewer)

/-- Where the first `Open`, `Load` and `Save` return on some files, none of them with 2^32 bytes of capacity, what later
    sessions save alters no more bits of all images together than it changes of the disk, with 256 bits for each
    checksum. All else in the images stays as it was. -/
theorem sessions_altered (platform : Platform) (config : StegoConfig) (select : File → Bool) (password : List UInt8)
    (directory : Directory) (small : ∀ file image, (file,Except.ok image) ∈ directory.entries → image.rawCapacity < 2 ^ 32)
    (returns : answers platform (configured config directory) [.open_ select password,.load,.save] =
      List.replicate 3 (.ok .done)) :
    ∃ (saved : Directory) (size : Nat) (bytes : Bytes size),
      saved = (after platform (configured config directory) [.open_ select password,.load,.save]).directory ∧
      ∀ all : List ((Nat → Nat → UInt8) × List Disk.Request), Disk.AllProper { kept := bytes } (all.map Prod.snd) →
        sessions platform config select password saved all = Disk.sessions { kept := bytes } (all.map Prod.snd) ∧
        (sessionsDirectory platform config select password saved all).covers = saved.covers ∧
        saved.altered (sessionsDirectory platform config select password saved all) ≤
          Disk.sessionCosts { kept := bytes } (all.map Prod.snd) := by
  obtain ⟨m₀,size,bytes,serves,contains,length⟩ := serves_of_returns returns
  have starts : Simulates platform config select password directory m₀ (configured config directory)
      (Disk.restart { kept := ⟨bytes,length⟩ }) := Contains.restart contains
  obtain ⟨_,ready⟩ := @Simulates.run _ _ _ _ _ _ _ _ _ starts serves [.open_,.load] ⟨trivial,rfl,trivial⟩
  obtain ⟨holds,_⟩ := ready.save_altered serves (show _ = some (⟨bytes,length⟩ : Bytes size) from rfl) rfl
  obtain ⟨_,simulates⟩ := @Simulates.run _ _ _ _ _ _ _ _ _ starts serves [.open_,.load,.save] ⟨trivial,rfl,trivial,trivial⟩
  obtain ⟨m₁,serves₁,alike⟩ := serves.sameFiles simulates.kept.files
  have least : ∀ c ∈ m₀.carrierFiles, c.rawCapacity < 2 ^ 32 := by
    intro c member
    obtain ⟨image,there,raw⟩ := (createdOf_opened serves.opened c member).file
    rw [← raw]
    exact small c.file image (List.mem_filter.mp there).1
  have holds₁ : Holds platform config m₁
      (after platform (configured config directory) [.open_ select password,.load,.save]).directory
      (Disk.kept { kept := ⟨bytes,length⟩ }).val := holds.alike alike
  refine ⟨_,size,⟨bytes,length⟩,rfl,fun all proper => ⟨serves₁.sessions holds₁.contains proper,?_⟩⟩
  exact (serves₁.sessions_few (alike.symm.small least) holds₁ proper).2

end StegoStorage
end StegoDisk
