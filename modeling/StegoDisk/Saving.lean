import StegoDisk.Attached

/-!
Saving the carriers of a manager. What the images hold afterwards is the storage, and a
manager that is opened alike and loads them gets its bytes.
-/
namespace StegoDisk
open Loops

namespace CarrierFile

/-- What is decided by the share is the same for two carriers with one share and one permutation. -/
theorem eq_of_plan {c c' : CarrierFile} (same : c.plan = c'.plan) (permutation : c.permutation = c'.permutation)
    (loaded : c.fileLoaded = c'.fileLoaded) : c' = { c with virtualStorage := c'.virtualStorage } := by
  obtain ⟨file,raw,p,encoder,codeword,data,count,capacity,used,start,isLoaded,subkey,storage⟩ := c
  obtain ⟨file',raw',p',encoder',codeword',data',count',capacity',used',start',isLoaded',subkey',storage'⟩ := c'
  simp only [plan,mk.injEq,and_true,true_and] at same permutation loaded ⊢
  obtain ⟨files,raws,_,encoders,codewords,datas,counts,capacities,useds,starts,subkeys⟩ := same
  exact ⟨files.symm,raws.symm,permutation.symm,encoders.symm,codewords.symm,datas.symm,counts.symm,capacities.symm,
    useds.symm,starts.symm,loaded.symm,subkeys.symm⟩

/-- Two carriers with one share that are ready have one permutation. -/
theorem Ready.permutation_eq {env : Environment} {e : Encoder} {c c' : CarrierFile} {h h' : Nat → Nat}
    (ready : Ready env e c h) (ready' : Ready env e c' h') (same : c.plan = c'.plan) : c.permutation = c'.permutation := by
  have type := congrArg (fun p : CarrierFile => p.permutation.type) same
  have raw := congrArg CarrierFile.rawCapacity same
  have subkey := congrArg CarrierFile.subkey same
  simp only [plan,Permutation.type_fresh] at type raw subkey
  obtain ⟨key,p,holds,kind,returns⟩ := ready'.initializes
  exact ready.initializes.unique ⟨key,p,subkey.trans holds,kind.trans type.symm,raw ▸ returns⟩

end CarrierFile

namespace CarrierFilesManager
open CarrierFile VirtualStorage Segments

variable {env : Environment} {e : Encoder} {g : PermutationType} {m m' : CarrierFilesManager} {ref ref' n n' : Nat}
  {s s' : VirtualStorage} {f f' : Nat → Nat} {directory : Directory}

/-- The images of the carriers hold the storage. -/
def Stored (e : Encoder) (directory : Directory) (files : List CarrierFile) (s : VirtualStorage) : Prop :=
  ∀ c ∈ files, ∃ image, directory.image c.file = .ok image ∧ Opened c image ∧
    ∀ b < c.blocksUsed, c.DecodesTo e image b (c.stored s b)

/-- Carriers that are loaded and have a share are saved. -/
theorem saveFiles_ok {storages : List VirtualStorage} (there : storages[ref]? = some s) (mapped : s.Mapped n f)
    {files : List CarrierFile} (loaded : ∀ c ∈ files, c.fileLoaded = true ∧ c.virtualStorage = some ref)
    (ready : ∀ c ∈ files, ∃ h, Ready env e c h) (used : ∀ c ∈ files, 0 < c.blocksUsed)
    (opened : ∀ c ∈ files, ∃ image, directory.image c.file = .ok image ∧ Opened c image)
    (distinct : (files.map CarrierFile.file).Nodup) :
    ∃ directory', saveFiles env storages files directory = ((files,directory'),.ok ()) ∧ Stored e directory' files s ∧
      ∀ other, other ∉ files.map CarrierFile.file → directory'.image other = directory.image other := by
  induction files generalizing directory with
  | nil => exact ⟨directory,rfl,by simp [Stored],fun _ _ => rfl⟩
  | cons c rest ih =>
    obtain ⟨image,held,opens⟩ := opened c List.mem_cons_self
    obtain ⟨isLoaded,refers⟩ := loaded c List.mem_cons_self
    obtain ⟨h,isReady⟩ := ready c List.mem_cons_self
    obtain ⟨image',saved,shape,decodes⟩ :=
      saveFile_ok isLoaded isReady (used c List.mem_cons_self) opens mapped
    rw [List.map_cons,List.nodup_cons] at distinct
    have apart : ∀ d ∈ rest, d.file ≠ c.file := fun d member same => distinct.1 (same ▸ List.mem_map_of_mem member)
    obtain ⟨directory',ran,stored,others⟩ := @ih (directory.write c.file image')
      (fun d member => loaded d (List.mem_cons_of_mem _ member)) (fun d member => ready d (List.mem_cons_of_mem _ member))
      (fun d member => used d (List.mem_cons_of_mem _ member))
      (fun d member => by
        rw [Directory.image_write_other (apart d member)]
        exact opened d (List.mem_cons_of_mem _ member)) distinct.2
    have own : directory'.image c.file = .ok image' := (others c.file distinct.1).trans (Directory.image_write held)
    refine ⟨directory',?_,?_,?_⟩
    · simp only [saveFiles,held,refers,Option.bind_some,there,Option.getD_some,saved,ran,ok_bind]
    · intro d member
      rcases List.mem_cons.mp member with rfl | later
      · exact ⟨image',own,opens.shape shape,decodes⟩
      · exact stored d later
    · intro other absent
      rw [List.map_cons,List.mem_cons,not_or] at absent
      rw [others other absent.2,Directory.image_write_other absent.1]

/-- Where a byte of the storage is: in a block of a carrier, and not of a later one. -/
theorem Attached.exists_access (attached : Attached env e g m ref s n f) (shaped : ∀ c ∈ m.planned env e, Shaped c)
    {p : Nat} (inside : p < n) : ∃ k b i, Accesses m.carrierFiles (k,b,i) p ∧ p < offset m.carrierFiles (k + 1) := by
  obtain ⟨k,c,here,low,high⟩ := exists_share attached.enough inside
  obtain ⟨b,i,access⟩ := CarrierFilesManager.exists_access shaped attached.mapped.fits here low high
  refine ⟨k,b,i,accesses_plan attached.shares.symm access,?_⟩
  have least : bytesUsed (m.planned env e) n k c ≤ c.capacity := min_le_left _ _
  rw [offset_plan attached.shares,offset,assignShares_capacity,← offset,offset_succ here]
  omega

/-- Managers that are opened alike are attached to storages of one size, with the same shares. -/
theorem Attached.alike_shares (attached : Attached env e g m ref s n f) (attached' : Attached env e g m' ref' s' n' f')
    (alike : OpenedAlike m m') : n' = n ∧ s' = { s with data := s'.data } ∧
      m.carrierFiles.map plan = m'.carrierFiles.map plan := by
  have applied' := attached'.applied
  rw [← alike.total,← alike.key] at applied'
  have frame := attached.applied.same applied'
  have mapped' := attached.applied.mapped applied' attached.mapped attached'.mapped
  obtain rfl : n' = n := attached'.mapped.raw.symm.trans mapped'.raw
  exact ⟨rfl,frame,by rw [attached.shares,attached'.shares,alike.planned]⟩

/-- Carriers with one share differ in the storage that they refer to alone. -/
theorem Attached.carrier_eq (attached : Attached env e g m ref s n f) (attached' : Attached env e g m' ref' s' n' f')
    {c c' : CarrierFile} (member : c ∈ m.carrierFiles) (member' : c' ∈ m'.carrierFiles) (same : c.plan = c'.plan) :
    c' = { c with virtualStorage := c'.virtualStorage } := by
  obtain ⟨h,ready⟩ := attached.ready c member
  obtain ⟨h',ready'⟩ := attached'.ready c' member'
  exact eq_of_plan same (ready.permutation_eq ready' same)
    ((attached.loaded c member).1.trans (attached'.loaded c' member').1.symm)

/-- A storage that was loaded from images has the bytes of the storage that they hold. -/
theorem Attached.data_eq (attached : Attached env e g m ref s n f) (attached' : Attached env e g m' ref' s' n' f')
    (shaped : ∀ c ∈ m.planned env e, Shaped c) (alike : OpenedAlike m m') (stored : Stored e directory m.carrierFiles s)
    (reflects : Reflects e directory m'.carrierFiles n' s') : s' = { s with data := s'.data } ∧ s'.data = s.data := by
  obtain ⟨rfl,frame,plans⟩ := attached.alike_shares attached' alike
  have applied' := attached'.applied
  rw [← alike.total,← alike.key] at applied'
  have mapped' := attached.applied.mapped applied' attached.mapped attached'.mapped
  obtain ⟨data,holds,_⟩ := attached.mapped.holds
  obtain ⟨data',holds',_⟩ := mapped'.holds
  refine ⟨frame,?_⟩
  rw [holds,holds']
  refine congrArg some (Mapped.ext mapped' attached.mapped holds' holds ?_)
  intro p inside
  obtain ⟨k,b,i,access,own⟩ := attached.exists_access shaped inside
  obtain ⟨c',image,bytes,here',found,decodes',value⟩ := reflects k b i p (accesses_plan plans access) inside
    (by rwa [← offset_plan plans])
  obtain ⟨c,here,block,byte,place⟩ := access
  have same : c.plan = c'.plan := by
    have both := congrArg (·[k]?) plans
    simpa only [List.getElem?_map,here,here',Option.map_some,Option.some.injEq] using both
  have equal := attached.carrier_eq attached' (List.mem_of_getElem? here) (List.mem_of_getElem? here') same
  obtain ⟨image',found',_,decodes⟩ := stored c (List.mem_of_getElem? here)
  rw [equal] at found decodes'
  obtain rfl := Except.ok.inj (found'.symm.trans found)
  obtain rfl := (decodes b block).unique decodes'
  rw [value,← place]
  simp [CarrierFile.stored,byte]

end CarrierFilesManager
end StegoDisk
