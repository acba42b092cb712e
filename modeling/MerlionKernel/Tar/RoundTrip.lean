import MerlionKernel.Rust.Cursor
import MerlionKernel.Tar.Header

/-!
# Reading a written archive back

The reader advances by the header and the contents rounded up to whole blocks, which is
what the writer appends for each file, and it stops at the zero blocks behind the last one.
-/

namespace MerlionKernel.Tar

open Rust

/-! ### The writer -/

/-- The zeros that fill up contents of `n` bytes to whole blocks. -/
def padding (n : Nat) : Bytes :=
  if n % blockSize ≠ 0 then List.replicate (blockSize - n % blockSize) 0 else []

theorem length_padding (n : Nat) :
    n + (padding n).length = (n + blockSize - 1) / blockSize * blockSize := by
  unfold padding blockSize
  split_ifs with hrem
  · rw [List.length_replicate]
    omega
  · rw [List.length_nil]
    omega

/-- The bytes of a list of files, without the end marker. -/
inductive Archive : List (String × Bytes) → Bytes → Prop
  | nil : Archive [] []
  | cons {name : String} {contents hdr body : Bytes} {entries : List (String × Bytes)}
      (hhdr : IsHeader name contents.length hdr) (hbody : Archive entries body) :
      Archive ((name, contents) :: entries) (hdr ++ (contents ++ (padding contents.length ++ body)))

theorem Archive.length_le {entries : List (String × Bytes)} {body : Bytes}
    (h : Archive entries body) : entries.length ≤ body.length := by
  induction h with
  | nil => exact Nat.le_refl 0
  | cons hhdr hbody ih =>
    have hlen := hhdr.length_eq
    unfold blockSize at hlen
    simp only [List.length_cons, List.length_append]
    omega

theorem appendEntry_returns (archive : Bytes) (name : String) (contents : Bytes) :
    Returns (appendEntry archive (name, contents)) fun out => ∃ hdr,
      IsHeader name contents.length hdr ∧
        out = archive ++ (hdr ++ (contents ++ padding contents.length)) := by
  obtain ⟨hdr, hrun, hhdr⟩ := createHeader_returns name contents
  simp only [appendEntry, hrun, ok_bind, padding]
  split_ifs with hrem
  · exact .ok ⟨hdr, hhdr, by simp only [List.append_assoc]⟩
  · exact .ok ⟨hdr, hhdr, by simp only [List.append_assoc, List.append_nil]⟩

theorem foldlM_appendEntry (entries : List (String × Bytes)) (archive : Bytes) :
    Returns (entries.foldlM appendEntry archive) fun out =>
      ∃ body, Archive entries body ∧ out = archive ++ body := by
  induction entries generalizing archive with
  | nil => exact .ok ⟨[], .nil, (List.append_nil _).symm⟩
  | cons entry entries ih =>
    rw [List.foldlM_cons]
    refine (appendEntry_returns archive entry.1 entry.2).bind ?_
    rintro out ⟨hdr, hhdr, rfl⟩
    refine (ih _).mono ?_
    rintro out ⟨body, hbody, rfl⟩
    exact ⟨_, .cons hhdr hbody, by simp only [List.append_assoc]⟩

/-- The writer's output: the files, and two zero blocks. -/
theorem createTar_returns (entries : List (String × Bytes)) :
    Returns (createTar entries) fun archive =>
      ∃ body, Archive entries body ∧ archive = body ++ List.replicate (blockSize * 2) 0 := by
  refine (foldlM_appendEntry entries []).bind ?_
  rintro out ⟨body, hbody, hout⟩
  exact .ok ⟨body, hbody, by rw [hout, List.nil_append]⟩

/-! ### The reader -/

/-- The reader's entry for a file: the same contents, the name as far as it fits, and a stored
checksum that is the checksum of the header. -/
structure Restores (entry : String × Bytes) (parsed : TarEntry) : Prop where
  data_eq : parsed.data = entry.2
  name_eq : parsed.header.name = nameField entry.1
  checksum_eq : parseOctal parsed.header.checksum = .ok (computeChecksum parsed.header.bytes)

theorem restores_of_isHeader {name : String} {contents hdr : Bytes}
    (hhdr : IsHeader name contents.length hdr) :
    Restores (name, contents) ⟨⟨hdr, hhdr.length_eq⟩, contents⟩ := by
  refine ⟨rfl, hhdr.name_eq, ?_⟩
  have hlt := computeChecksum_lt hhdr.length_eq
  exact (congrArg parseOctal hhdr.checksum_eq).trans (parseOctal_octalDigits (by decide) hlt _)

section Reader

variable {data : Bytes} {offset : Nat} {acc : List TarEntry}

/-- A round reads one file. -/
theorem entryRound_member {name : String} {contents hdr rest : Bytes}
    (hhdr : IsHeader name contents.length hdr) (hsize : contents.length < 8 ^ 11)
    (hoffset : offset ≤ data.length)
    (h : data.drop offset = hdr ++ (contents ++ (padding contents.length ++ rest))) :
    entryRound data (offset, acc) =
      .ok (.again (offset + (hdr.length + (contents.length + (padding contents.length).length)),
        acc ++ [⟨⟨hdr, hhdr.length_eq⟩, contents⟩])) := by
  have hlen : hdr.length = blockSize := hhdr.length_eq
  have hread : slice data offset (offset + blockSize) = .ok hdr := hlen ▸ slice_of_drop hoffset h
  have hfit := le_of_drop hoffset h
  have hbehind := drop_add_of_drop h
  rw [hlen] at hfit hbehind
  have hcontents := slice_of_drop hfit hbehind
  have hend := le_of_drop hfit hbehind
  have hnonzero : ¬ hdr.all (fun b => decide (b = 0)) = true := by
    intro hzero
    have hmem : '0'.toUInt8 ∈ window hdr 156 1 := by
      rw [hhdr.typeflag_eq]
      exact List.mem_singleton_self _
    have hbyte := List.all_eq_true.mp hzero _ (List.mem_of_mem_drop (List.mem_of_mem_take hmem))
    exact absurd hbyte (by decide)
  have hheader : readHeader hdr = .ok ⟨hdr, hhdr.length_eq⟩ := dif_pos hlen
  have hoctal : parseOctal (TarHeader.size ⟨hdr, hhdr.length_eq⟩) = .ok contents.length :=
    (congrArg parseOctal hhdr.size_eq).trans (parseOctal_octalDigits (by decide) hsize [])
  simp only [entryRound, if_pos hfit, hread, ok_bind, if_neg hnonzero, hheader, hoctal,
    if_pos hend, hcontents, pure_eq_ok]
  rw [← length_padding, hlen, Nat.add_assoc]

/-- At the end marker the loop stops. -/
theorem entryRound_end (hoffset : offset ≤ data.length)
    (h : data.drop offset = List.replicate (blockSize * 2) 0) :
    entryRound data (offset, acc) = .ok (.stop acc) := by
  rw [Nat.mul_two, List.replicate_add] at h
  have hfit := le_of_drop hoffset h
  have hread := slice_of_drop hoffset h
  rw [List.length_replicate] at hfit hread
  have hzero : (List.replicate blockSize (0 : UInt8)).all (fun b => decide (b = 0)) = true := by
    rw [List.all_replicate]
    decide
  simp only [entryRound, if_pos hfit, hread, ok_bind, if_pos hzero]
  rfl

/-- From the start of a file on, the loop reads that file and all that follow. -/
theorem loop_entryRound {entries : List (String × Bytes)} {body : Bytes}
    (harchive : Archive entries body) (hsize : ∀ entry ∈ entries, entry.2.length < 8 ^ 11)
    (hoffset : offset ≤ data.length)
    (h : data.drop offset = body ++ List.replicate (blockSize * 2) 0) {fuel : Nat}
    (hfuel : entries.length < fuel) :
    Returns (loop (entryRound data) fuel (offset, acc)) fun out =>
      ∃ parsed, List.Forall₂ Restores entries parsed ∧ out = acc ++ parsed := by
  induction harchive generalizing offset acc fuel with
  | nil =>
    obtain ⟨fuel, rfl⟩ : ∃ k, fuel = k + 1 := ⟨fuel - 1, by omega⟩
    rw [loop_stop (entryRound_end hoffset h)]
    exact .ok ⟨[], .nil, (List.append_nil _).symm⟩
  | @cons name contents hdr body entries hhdr _ ih =>
    obtain ⟨hcontents, hrest⟩ := List.forall_mem_cons.mp hsize
    rw [List.length_cons] at hfuel
    obtain ⟨fuel, rfl⟩ : ∃ k, fuel = k + 1 := ⟨fuel - 1, by omega⟩
    simp only [List.append_assoc] at h
    rw [loop_again (entryRound_member hhdr hcontents hoffset h)]
    have hmember : data.drop offset = (hdr ++ (contents ++ padding contents.length)) ++
        (body ++ List.replicate (blockSize * 2) 0) := by
      simp only [List.append_assoc]
      exact h
    have hnext := le_of_drop hoffset hmember
    have hdrop := drop_add_of_drop hmember
    simp only [List.length_append] at hnext hdrop
    refine (ih hrest hnext hdrop (by omega)).mono ?_
    rintro out ⟨parsed, hparsed, rfl⟩
    exact ⟨_ :: parsed, .cons (restores_of_isHeader hhdr) hparsed, (List.append_cons _ _ _).symm⟩

end Reader

/-- The reader gives back the files of a written archive, in their order. -/
theorem parseTar_createTar (entries : List (String × Bytes))
    (hsize : ∀ entry ∈ entries, entry.2.length < 8 ^ 11) :
    Returns (createTar entries >>= parseTar) (List.Forall₂ Restores entries) := by
  refine (createTar_returns entries).bind ?_
  rintro archive ⟨body, hbody, rfl⟩
  have hfuel := hbody.length_le
  refine (loop_entryRound hbody hsize (Nat.zero_le _) rfl ?_).mono ?_
  · rw [List.length_append]
    omega
  · rintro out ⟨parsed, hparsed, rfl⟩
    exact hparsed

/-- An empty file and one of zeros, which a reader could take for the end. -/
theorem parseTar_createTar_zeros :
    (∀ entry ∈ [("empty", []), ("zeros", [0, 0])], (entry : String × Bytes).2.length < 8 ^ 11) ∧
      Returns (createTar [("empty", []), ("zeros", [0, 0])] >>= parseTar)
        (List.Forall₂ Restores [("empty", []), ("zeros", [0, 0])]) :=
  ⟨by decide, parseTar_createTar _ (by decide)⟩

end MerlionKernel.Tar
