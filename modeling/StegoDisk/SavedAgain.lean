import StegoDisk.RoundTrip

/-!
Saving what was saved already. The checksum is the one that is there, every block carries
its bytes, and an image is packed unchanged from the bits that it was unpacked to, so that no file
changes.
-/
namespace StegoDisk
open Loops

namespace VirtualStorage

variable {env : Environment} {g : PermutationType} {requestedSize : Nat} {key : List UInt8} {s : VirtualStorage}
  {n : Nat} {f : Nat → Nat} {keccak : Keccak}

/-- A block that is written where it is. -/
theorem splice_still (bytes : List UInt8) {start width : Nat} (inside : start + width ≤ bytes.length) :
    splice bytes start ((bytes.drop start).take width) = bytes := by
  have size : ((bytes.drop start).take width).length = width := by
    rw [List.length_take,List.length_drop]
    omega
  rw [splice,size,← List.drop_drop,List.append_assoc,List.take_append_drop,List.take_append_drop]

/-- `WriteChecksum` leaves a valid checksum. -/
theorem writeChecksum_still (applied : s.AppliedAs env g requestedSize key) (mapped : s.Mapped n f)
    (valid : s.isValidChecksum keccak = .ok true) : s.writeChecksum keccak = .ok s := by
  obtain ⟨data,holds,length,usable,large⟩ := applied.parts mapped
  simp only [isValidChecksum,holds,show data.length ≠ 0 by omega,show s.usableCapacity ≠ 0 by omega,if_false] at valid
  obtain ⟨digest,computed,rest⟩ := bind_eq_ok.mp valid
  split at rest
  · rename_i inside
    have same : (data.drop s.usableCapacity).take storageHashLength = digest.val := by simpa using rest
    simp only [writeChecksum,holds,show data.length ≠ 0 by omega,show s.usableCapacity ≠ 0 by omega,or_self,if_false,
      computed,ok_bind,if_neg (Nat.not_lt.mpr inside)]
    rw [← same,splice_still data inside,← holds]
  · cases rest

end VirtualStorage

namespace CarrierFile

variable {env : Environment} {e : Encoder} {file : CarrierFile} {image : Image} {s : VirtualStorage} {n length : Nat}
  {f : Nat → Nat} {buffer : MemoryBuffer}

/-- A block that is decoded to the bytes of the storage is left alone. -/
theorem embedBlock_still (encodes : file.Encodes e length) (whole : buffer.length = length) (mapped : s.Mapped n f) {b : Nat}
    (used : b < file.blocksUsed) (holds : file.extractedBlock e buffer b = .ok (file.stored s b)) :
    file.embedBlock e s buffer b = .ok buffer := by
  have inside := encodes.block used
  have positive := e.codewordBlockSize_pos
  have sliced : blockAt buffer (b * file.codewordBlockSize) e.codewordBlockSize = _ := blockAt_ok positive (by omega)
  rw [extractedBlock,sliced,ok_bind] at holds
  rw [embedBlock,stored_ok mapped,ok_bind,sliced,ok_bind,e.embed_still (by simp; omega)
    (by simp [stored,encodes.dataBlockSize]) holds,ok_bind,VirtualStorage.splice_still buffer (by omega)]

/-- A buffer whose blocks are decoded to the bytes of the storage is left alone. -/
theorem embedBufferUsingEncoder_still (encodes : file.Encodes e length) (whole : buffer.length = length)
    (mapped : s.Mapped n f) (blocks : 0 < file.blocksUsed)
    (holds : ∀ b < file.blocksUsed, file.extractedBlock e buffer b = .ok (file.stored s b)) :
    file.embedBufferUsingEncoder buffer s = .ok buffer := by
  have some_ := encodes.some_
  have positive := e.codewordBlockSize_pos
  have width : file.codewordBlockSize ≠ 0 := by
    rw [encodes.codewordBlockSize]
    omega
  obtain ⟨after,ran,same⟩ := foldlM_range (fun _ (after : MemoryBuffer) => after = buffer) rfl
    fun b used after (same : after = buffer) =>
      ⟨buffer,by rw [same]; exact embedBlock_still encodes whole mapped used (holds b used),rfl⟩
  simp only [embedBufferUsingEncoder,show buffer.length ≠ 0 by omega,encodes.encoder,width,
    show file.blocksUsed ≠ 0 by omega,if_false]
  rw [ran,same]

/-- An image whose blocks are decoded to the bytes of the storage is saved unchanged. -/
theorem saveFile_still (loaded : file.fileLoaded = true) (ready : Ready env e file f) (blocks : 0 < file.blocksUsed)
    (opened : Opened file image) {g : Nat → Nat} (mapped : s.Mapped n g)
    (decodes : ∀ b < file.blocksUsed, file.DecodesTo e image b (file.stored s b)) :
    file.saveFile env image s = (file,.ok image) := by
  obtain ⟨buffer,unpacked,length,_⟩ := ready.unpacks opened
  have holds : ∀ b < file.blocksUsed, file.extractedBlock e buffer b = .ok (file.stored s b) := by
    intro b used
    obtain ⟨buffer',unpacked',decoded⟩ := decodes b used
    obtain rfl := Except.ok.inj (unpacked.symm.trans unpacked')
    exact decoded
  simp only [saveFile_eq loaded ready opened,unpacked,ok_bind,
    embedBufferUsingEncoder_still ready.encodes length mapped blocks holds,
    pack_still opened ready.fills ready.positive ready.enough unpacked]

end CarrierFile

/-- Writing what a file holds changes nothing. -/
theorem Directory.write_still {directory : Directory} {file : File} {image : Image} (held : directory.image file = .ok image) :
    directory.write file image = directory := by
  have there := image_eq_ok.mp held
  have entries : (directory.write file image).entries = directory.entries := by
    refine (List.map_congr_left fun entry member => ?_).trans (List.map_id _)
    split
    · rename_i here
      exact List.inj_on_of_nodup_map directory.distinct there member here.symm ▸ rfl
    · rfl
  obtain ⟨_,_⟩ := directory
  simpa [write] using entries

namespace CarrierFilesManager
open CarrierFile VirtualStorage

variable {env : Environment} {e : Encoder} {g : PermutationType} {m m' : CarrierFilesManager} {ref ref' n n' : Nat}
  {s : VirtualStorage} {f f' : Nat → Nat} {directory : Directory}

/-- Carriers whose images hold the storage are saved unchanged. -/
theorem saveFiles_still {storages : List VirtualStorage} (there : storages[ref]? = some s) (mapped : s.Mapped n f)
    {files : List CarrierFile} (loaded : ∀ c ∈ files, c.fileLoaded = true ∧ c.virtualStorage = some ref)
    (ready : ∀ c ∈ files, ∃ h, Ready env e c h) (used : ∀ c ∈ files, 0 < c.blocksUsed)
    (stored : Stored e directory files s) : saveFiles env storages files directory = ((files,directory),.ok ()) := by
  induction files with
  | nil => rfl
  | cons c rest ih =>
    obtain ⟨isLoaded,refers⟩ := loaded c List.mem_cons_self
    obtain ⟨h,isReady⟩ := ready c List.mem_cons_self
    obtain ⟨image,held,opens,decodes⟩ := stored c List.mem_cons_self
    have saved := saveFile_still isLoaded isReady (used c List.mem_cons_self) opens mapped decodes
    have later := ih (fun d member => loaded d (List.mem_cons_of_mem _ member))
      (fun d member => ready d (List.mem_cons_of_mem _ member)) (fun d member => used d (List.mem_cons_of_mem _ member))
      (fun d member => stored d (List.mem_cons_of_mem _ member))
    simp only [saveFiles,held,refers,Option.bind_some,there,Option.getD_some,saved,Directory.write_still held,later,ok_bind]

/-- A manager whose files hold its storage with a valid checksum saves it without a change. -/
theorem Attached.saveVirtualStorage_still {storages : List VirtualStorage} (attached : Attached env e g m ref s n f)
    (there : storages[ref]? = some s) (used : ∀ c ∈ m.carrierFiles, 0 < c.blocksUsed)
    (stored : Stored e directory m.carrierFiles s) (valid : s.isValidChecksum env.keccak = .ok true) :
    m.saveVirtualStorage env storages directory = ((m,storages,directory),.ok ()) := by
  obtain ⟨inside,here⟩ := List.getElem?_eq_some_iff.mp there
  have same : storages.set ref s = storages := by
    rw [← here,List.set_getElem_self]
  have written := writeChecksum_still attached.applied attached.mapped valid
  have saved := saveFiles_still there attached.mapped attached.loaded attached.ready used stored
  simp only [saveVirtualStorage,attached.refers,there,written,same,saved]
  rw [← attached.refers]

/-- The images hold the storage for every manager that is attached to it alike. -/
theorem Attached.stored_alike (attached : Attached env e g m ref s n f) (attached' : Attached env e g m' ref' s n' f')
    (alike : OpenedAlike m m') (stored : Stored e directory m.carrierFiles s) : Stored e directory m'.carrierFiles s := by
  obtain ⟨_,_,plans⟩ := attached.alike_shares attached' alike
  intro c' member'
  have there : c'.plan ∈ m.carrierFiles.map plan := plans ▸ List.mem_map_of_mem member'
  obtain ⟨c,member,same⟩ := List.mem_map.mp there
  rw [attached.carrier_eq attached' member member' same]
  obtain ⟨image,held,opens,decodes⟩ := stored c member
  exact ⟨image,held,⟨opens.raw,opens.opens,opens.decodes⟩,decodes⟩

/-- Carriers are opened with a password and an encoder and loaded, every carrier having a block at least, and
    a storage with any bytes is saved. Then saving it once more changes no file, and neither does saving
    what any manager with the same password, encoder and permutations has loaded from the files. -/
theorem save_again (env : Environment) (sorting : Sorting) (localPermutation : Format → PermutationType)
    (g : PermutationType) (e : Encoder) (select : File → Bool) (password : List UInt8)
    (directory directory₁ directory' : Directory) (m₀ m₁ m₂ m₃ m₄ : CarrierFilesManager) (memory : Nat → UInt8) (ref : Nat)
    (s : VirtualStorage) (valid : Bool) (storages storages' : List VirtualStorage) (data : MemoryBuffer)
    (opened : openDirectory env sorting localPermutation select password m₀ directory = (m₁,.ok ()))
    (applied : (m₁.setEncoder e).applyEncoder env = (m₂,.ok ()))
    (loaded : m₂.loadVirtualStorage env memory directory ref (unapplied g) = ((m₃,s),.ok valid))
    (used : ∀ c ∈ m₃.carrierFiles, 0 < c.blocksUsed) (same : directory₁.SameFiles directory)
    (length : data.length = s.rawCapacity) (there : storages[ref]? = some { s with data := some data })
    (saved : m₃.saveVirtualStorage env storages directory₁ = ((m₄,storages',directory'),.ok ())) :
    m₄.saveVirtualStorage env storages' directory' = ((m₄,storages',directory'),.ok ()) ∧
      ∀ (n₀ : CarrierFilesManager) (memory' : Nat → UInt8) (ref' : Nat), ∃ n₁ n₂ n₃ s',
        openDirectory env sorting localPermutation select password n₀ directory' = (n₁,.ok ()) ∧
        (n₁.setEncoder e).applyEncoder env = (n₂,.ok ()) ∧
        n₂.loadVirtualStorage env memory' directory' ref' (unapplied g) = ((n₃,s'),.ok true) ∧
        ∀ storages₁ : List VirtualStorage, storages₁[ref']? = some s' →
          n₃.saveVirtualStorage env storages₁ directory' = ((n₃,storages₁,directory'),.ok ()) := by
  obtain ⟨n,f,attached,alike,saves⟩ := attached_of_session opened applied loaded
  obtain ⟨after,data',ran,attached',stored,same',valid',_⟩ :=
    saves directory₁ same used (some data) (attached.mapped.replace (length.trans attached.mapped.raw)) storages there
  obtain ⟨rfl,rfl,rfl⟩ : m₄ = m₃ ∧ storages' = storages.set ref { s with data := data' } ∧ directory' = after := by
    simpa using saved.symm.trans ran
  obtain ⟨inside,_⟩ := List.getElem?_eq_some_iff.mp there
  refine ⟨attached'.saveVirtualStorage_still (List.getElem?_set_self inside) used stored valid',?_⟩
  intro n₀ memory' ref'
  obtain ⟨n₁,n₂,n₃,opened',applied',reloaded,alike',_,_,attached''⟩ :=
    attached'.reopen used stored valid' opened applied alike (same'.trans same) n₀ memory' ref'
  obtain ⟨_,_,plans⟩ := attached'.alike_shares attached'' alike'
  exact ⟨n₁,n₂,n₃,_,opened',applied',reloaded,fun storages₁ there' =>
    attached''.saveVirtualStorage_still there' (used_of_plan plans used)
      (attached'.stored_alike attached'' alike' stored) valid'⟩

/-- A picture whose storage has been filled is saved, saved again, and opened, loaded and saved. -/
theorem save_again_picture : ∃ m storages directory',
    pictureLoaded.1.saveVirtualStorage Permutation.twoPrimes [{ pictureLoaded.2 with data := some (List.replicate 34 7) }]
        onePicture = ((m,storages,directory'),.ok ()) ∧
      m.saveVirtualStorage Permutation.twoPrimes storages directory' = ((m,storages,directory'),.ok ()) ∧
      ∃ n₁ n₂ n₃ s',
        openDirectory Permutation.twoPrimes .byInsertion (fun _ => .identity) (fun _ => true) [] {} directory' = (n₁,.ok ()) ∧
        (n₁.setEncoder (.lsb .default)).applyEncoder Permutation.twoPrimes = (n₂,.ok ()) ∧
        n₂.loadVirtualStorage Permutation.twoPrimes (fun _ => 255) directory' 0 (unapplied .identity) = ((n₃,s'),.ok true) ∧
        n₃.saveVirtualStorage Permutation.twoPrimes [s'] directory' = ((n₃,[s'],directory'),.ok ()) := by
  have raw : pictureLoaded.2.rawCapacity = 34 := by decide +kernel
  have loads := pictureLoaded_eq
  have used := pictureLoaded_used
  generalize pictureLoaded = loaded at *
  obtain ⟨m₃,s⟩ := loaded
  have length : (List.replicate 34 (7 : UInt8)).length = s.rawCapacity := by
    rw [List.length_replicate]
    exact raw.symm
  obtain ⟨n,f,attached,_,saves⟩ := attached_of_session pictureOpened_eq pictureApplied_eq loads
  obtain ⟨directory',data',saved,_⟩ := saves onePicture (.refl _) used _
    (attached.mapped.replace (length.trans attached.mapped.raw)) [_] rfl
  obtain ⟨still,again⟩ := save_again Permutation.twoPrimes .byInsertion (fun _ => .identity) .identity (.lsb .default)
    (fun _ => true) [] onePicture onePicture directory' {} pictureOpened pictureApplied m₃ _ (fun _ => 0) 0 s true
    [{ s with data := some (List.replicate 34 7) }] _ (List.replicate 34 7) pictureOpened_eq pictureApplied_eq
    loads used (.refl _) length rfl saved
  obtain ⟨n₁,n₂,n₃,s',opened,applied,loaded,saves'⟩ := again {} (fun _ => 255) 0
  exact ⟨_,_,_,saved,still,n₁,n₂,n₃,s',opened,applied,loaded,saves' [s'] rfl⟩

end CarrierFilesManager
end StegoDisk
