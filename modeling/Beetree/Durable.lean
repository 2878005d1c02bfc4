import Beetree.Honest

/-! What a file of the engine holds.

One superblock slot describes the newest published tree and the other the one before it. Commits
alternate between the slots and append records, so neither is damaged. -/
namespace Beetree

section Files
variable [Crc32Fast] {file file' : List Byte} {sb sb' : Superblock} {r r' : Record} {base : ℕ}
    {buf : List Byte}

/-- A superblock stands for a tree that is in the file. -/
structure Stands (file : List Byte) (sb : Superblock) (r : Record) : Prop where
  sane : sb.Sane
  root : sb.rootOffset.toNat = r.label
  onFile : r.2.OnFile file sb.watermark.toNat
  length : sb.watermark.toNat ≤ file.length
  valid : r.2.Valid none none
  rest : r.2.RootRest sb.params
  fresh : ∀ k, r.2.Below k (sb.lastSeq.toNat + 1)
  nodup : r.2.offs.Nodup

lemma Stands.sameData (h : Stands file sb r) (hs : SameData sb.watermark.toNat file file') :
    Stands file' sb r where
  sane := h.sane
  root := h.root
  onFile := h.onFile.sameData hs le_rfl
  length := hs.length
  valid := h.valid
  rest := h.rest
  fresh := h.fresh
  nodup := h.nodup

/-- What the other slot holds: the generation before, or nothing. -/
inductive Backup (file : List Byte) (sb : Superblock) : Option (Superblock × Record) → Prop
  | none : slotStatus file (superblockSlot (sb.generation.toNat + 1)) = .invalid →
    Backup file sb none
  | some {sb' : Superblock} {r' : Record} : sb'.generation.toNat + 1 = sb.generation.toNat →
    sb'.params = sb.params →
      sb'.watermark.toNat ≤ sb.watermark.toNat →
      slotStatus file (superblockSlot sb'.generation.toNat) = .valid sb' → Stands file sb' r' →
      Backup file sb (some (sb', r'))

structure Durable (file : List Byte) (sb : Superblock) (r : Record)
    (prev : Option (Superblock × Record)) : Prop where
  slot : slotStatus file (superblockSlot sb.generation.toNat) = .valid sb
  stands : Stands file sb r
  backup : Backup file sb prev

omit [Crc32Fast] in
lemma superblockSlot_succ (g : ℕ) : superblockSlot (g + 1) = superblockSlot 0 ∧
    superblockSlot g = superblockSlot 1 ∨
    superblockSlot (g + 1) = superblockSlot 1 ∧ superblockSlot g = superblockSlot 0 := by
  unfold superblockSlot superblockSlotSize
  rcases Nat.mod_two_eq_zero_or_one g with h | h
  · right
    omega
  · left
    omega

/-- The newest published state is the one that is selected. -/
theorem Durable.selected {prev : Option (Superblock × Record)} (h : Durable file sb r prev) :
    selected file = .ok sb := by
  have hw := h.stands.length
  have hslot := h.slot
  unfold Beetree.selected candidates
  cases h.backup with
  | none hinv =>
    rcases superblockSlot_succ sb.generation.toNat with ⟨h₁, h₀⟩ | ⟨h₁, h₀⟩
    · rw [← h₁, ← h₀, hslot, hinv]
      simp [Candidates.consider, Candidates.select, hw]
    · rw [← h₁, ← h₀, hslot, hinv]
      simp [Candidates.consider, Candidates.select, hw]
  | @some sb' r' hg _ hle hslot' hstands' =>
    have hw' := hstands'.length
    have hlt : sb'.generation < sb.generation := by
      rw [UInt64.lt_iff_toNat_lt]
      omega
    have hnot : ¬ sb.generation < sb'.generation := by
      rw [UInt64.lt_iff_toNat_lt]
      omega
    rw [← hg] at hslot
    rcases superblockSlot_succ sb'.generation.toNat with ⟨h₁, h₀⟩ | ⟨h₁, h₀⟩
    · rw [h₁] at hslot
      rw [h₀] at hslot'
      rw [hslot, hslot']
      simp [Candidates.consider, Candidates.select, hw, hw', hnot]
    · rw [h₁] at hslot
      rw [h₀] at hslot'
      rw [hslot, hslot']
      simp [Candidates.consider, Candidates.select, hw, hw', hlt]

lemma slotStatus_congr {o : ℕ} (ho : o + superblockSlotSize ≤ file.length)
    (ho' : o + superblockSlotSize ≤ file'.length)
    (hb : ∀ i, o ≤ i → i < o + superblockSlotSize → file'[i]? = file[i]?) :
    slotStatus file' o = slotStatus file o := by
  have hread := readAt_congr ho ho' hb
  unfold readAt at hread
  rw [if_pos ho, if_pos ho'] at hread
  unfold slotStatus
  rw [if_neg (not_lt.mpr ho), if_neg (not_lt.mpr ho'), Option.some.inj hread]

/-- Cutting the file to the watermark, as opening it does. -/
theorem Durable.resize {prev : Option (Superblock × Record)} (h : Durable file sb r prev) :
    Durable (resize file sb.watermark.toNat) sb r prev := by
  have hw := h.stands.length
  have hdata : dataStart ≤ sb.watermark.toNat := h.stands.sane.1
  have hsame : SameData sb.watermark.toNat file (Beetree.resize file sb.watermark.toNat) :=
    ⟨by simp, fun i _ hi => resize_getElem? file _ i hi (hi.trans_le hw)⟩
  have hslot : ∀ g, slotStatus (Beetree.resize file sb.watermark.toNat)
    (superblockSlot g) = slotStatus file (superblockSlot g) := by
    intro g
    have hg := superblockSlot_le g
    refine slotStatus_congr (by omega) (by rw [resize_length]; omega) fun i _ hi => ?_
    exact resize_getElem? file _ i (by omega) (by omega)
  refine ⟨by rw [hslot]; exact h.slot, h.stands.sameData hsame, ?_⟩
  cases h.backup with
  | none hinv => exact .none (by rw [hslot]; exact hinv)
  | some hg hp hle hslot' hstands' =>
    exact .some hg hp hle (by rw [hslot]; exact hslot') (hstands'.sameData (hsame.mono hle))

def Superblock.Current (sb : Superblock) : Prop := sb.magic = magicBytes ∧
    sb.formatVersion = currentFormat

lemma slotStatus_of_read {o : ℕ} {slot : List Byte}
    (h : readAt file o superblockSlotSize = some slot) :
    slotStatus file o = decodeSlot slot := by
  unfold readAt at h
  split_ifs at h with hlen
  unfold slotStatus
  rw [if_neg (not_lt.mpr hlen), Option.some.inj h]

lemma slotStatus_of_head {o : ℕ} (h : file[o]? ≠ some 66) : slotStatus file o = .invalid := by
  unfold slotStatus
  split_ifs with hlen
  · rfl
  · apply decodeSlot_of_head
    rw [List.head?_take, if_neg (by decide), List.head?_drop]
    exact h

lemma slotStatus_published {g : ℕ} (hc : sb.Current) (hs : sb.Sane) :
    slotStatus (published file base buf g sb) (superblockSlot g) = .valid sb := by
  rw [slotStatus_of_read published_slot]
  exact decodeSlot_encodeSlot hc.1 hc.2 hs

lemma slotStatus_published_other {g : ℕ} (hbase : dataStart ≤ base) (hlen : base ≤ file.length) :
    slotStatus (published file base buf (g + 1) sb)
    (superblockSlot g) = slotStatus file (superblockSlot g) := by
  have hslot := superblockSlot_le g
  have hreach : Reaches file base buf := Or.inl hlen
  have hlen' : base + buf.length ≤ (published file base buf (g + 1) sb).length :=
    published_length hreach
  have happ := appended_length hreach
  have hapart : superblockSlot g + superblockSlotSize ≤ superblockSlot (g + 1) ∨
      superblockSlot (g + 1) + superblockSlotSize ≤ superblockSlot g := by
    unfold superblockSlot superblockSlotSize
    omega
  refine slotStatus_congr (by omega) (by omega) fun i hlo hhi => ?_
  unfold published
  rw [writeAt_getElem? _ _ _ (by omega) (by rw [sb.encodeSlot_length]; omega)]
  split_ifs with hb
  · rfl
  · exact writeAt_getElem? _ _ _ (by omega) (Or.inl (by omega))

/-- A commit makes the newest state the one before. -/
theorem Durable.published {prev : Option (Superblock × Record)} (h : Durable file sb r prev)
    (hc : sb'.Current)
    (hg : sb'.generation.toNat = sb.generation.toNat + 1) (hp : sb.params = sb'.params)
    (hw : sb.watermark.toNat ≤ sb'.watermark.toNat)
    (hfile : file' = Beetree.published file sb.watermark.toNat buf (sb.generation.toNat + 1) sb')
    (hs : Stands file' sb' r') :
    Durable file' sb' r' (some (sb, r)) := by
  have hlen := h.stands.length
  have hdata : dataStart ≤ sb.watermark.toNat := h.stands.sane.1
  refine ⟨?_, hs, .some hg.symm hp hw ?_ (h.stands.sameData ?_)⟩
  · rw [hfile, hg]
    exact slotStatus_published hc hs.sane
  · rw [hfile, slotStatus_published_other hdata hlen]
    exact h.slot
  · rw [hfile]
    exact published_sameData (Or.inl hlen)

/-- The first commit finds no other slot. -/
theorem Durable.first (hc : sb.Current) (hg : sb.generation.toNat = 0) (hbuf : buf ≠ [])
    (hfile : file' = Beetree.published [] dataStart buf 0 sb) (hs : Stands file' sb r) :
    Durable file' sb r none := by
  refine ⟨?_, hs, .none (slotStatus_of_head ?_)⟩
  · rw [hfile, hg]
    exact slotStatus_published hc hs.sane
  · rw [hg]
    have hne : buf.isEmpty = false := by simpa using hbuf
    rw [hfile]
    unfold Beetree.published
    rw [hne, if_neg (by decide), writeAt_getElem?_eq, if_neg (by rw [sb.encodeSlot_length]; decide)]
    split_ifs with hi
    · rw [List.getD_eq_getElem?_getD, writeAt_getElem?_eq,
        if_neg (by unfold superblockSlot dataStart superblockSlotSize; omega)]
      split_ifs <;> simp
    · simp

structure Beside (file file' : List Byte) (slot : ℕ) : Prop where
  length : file'.length = file.length
  same : ∀ i, i < slot ∨ slot + superblockSlotSize ≤ i → file'[i]? = file[i]?

omit [Crc32Fast] in
lemma Beside.sameData {g w : ℕ} (hd : Beside file file' (superblockSlot g)) (hw : w ≤ file.length) :
    SameData w file file' := by
  refine ⟨hd.length ▸ hw, fun i hi _ => hd.same i (Or.inr ?_)⟩
  have hslot := superblockSlot_le g
  omega

lemma Beside.slotStatus {g : ℕ} (hlen : dataStart ≤ file.length)
    (hd : Beside file file' (superblockSlot (g + 1))) :
    slotStatus file' (superblockSlot g) = slotStatus file (superblockSlot g) := by
  have hslot := superblockSlot_le g
  have hlen' := hd.length
  refine slotStatus_congr (by omega) (by omega) fun i hlo hhi => hd.same i ?_
  unfold superblockSlot superblockSlotSize at *
  omega

/-- A file whose one slot was lost. Nothing else was. -/
structure Damaged (file file' : List Byte) (slot : ℕ) : Prop extends Beside file file' slot where
  lost : slotStatus file' slot = .invalid

/-- Without the newest slot, the state before it is the one that is left. -/
theorem Durable.fallback (h : Durable file sb r (some (sb', r')))
    (hd : Damaged file file' (superblockSlot sb.generation.toNat)) :
    Durable file' sb' r' none := by
  have hdata : dataStart ≤ sb.watermark.toNat := h.stands.sane.1
  have hlen := h.stands.length
  cases h.backup with
  | some hg _ hle hslot hstands =>
    rw [← hg] at hd
    refine ⟨?_, hstands.sameData (hd.sameData hstands.length), .none hd.lost⟩
    rw [hd.slotStatus (hdata.trans hlen)]
    exact hslot

/-- Without the other slot, the newest state stays. -/
theorem Durable.scratched {prev : Option (Superblock × Record)} (h : Durable file sb r prev)
    (hd : Damaged file file' (superblockSlot (sb.generation.toNat + 1))) :
    Durable file' sb r none := by
  have hdata : dataStart ≤ sb.watermark.toNat := h.stands.sane.1
  have hlen := h.stands.length
  refine ⟨?_, h.stands.sameData (hd.sameData hlen), .none hd.lost⟩
  rw [hd.slotStatus (hdata.trans hlen)]
  exact h.slot

end Files

section Trees
variable {h : ℕ} {off : NodeId → ℕ} {prm : Params} {t : Live h}

lemma hereditary_rest (prm : Params) : Hereditary fun _ d => d.RootRest prm :=
  fun _ _ _ _ _ hd d hmem => (Tree.rest_node.mp hd).2.2.2 d hmem |>.rootRest

lemma Tree.rest_clean {d : VTree h} : d.clean.Rest prm ↔ d.Rest prm := by
  rw [← Tree.rest_bare, Tree.clean, Tree.bare_relabel, Tree.rest_bare]

lemma Live.rest_view (hS : Live.Sound (fun _ d => d.RootRest prm) t)
    (ht : (Live.plain t).Rest prm) :
    (Live.view true t).Rest prm := by
  induction h with
  | zero =>
    rcases t with ⟨id, dirty, dk, x⟩ | ⟨id, d⟩
    · cases dirty with
      | true => exact ht
      | false =>
        obtain ⟨d, rfl, o, rfl⟩ := hS.2.1 rfl
        exact ht
    · exact Tree.rest_clean.mp ht
  | succ h ih =>
    rcases t with ⟨id, dirty, dk, x⟩ | ⟨id, d⟩
    · cases dirty with
      | false =>
        obtain ⟨d, rfl, -⟩ := hS.2.1 rfl
        exact hS.1 d rfl
      | true =>
        induction x using Body.succCases with
        | hn ps cs b =>
          rw [Live.plain_known, Body.plain_node, Tree.rest_node, List.length_map] at ht
          rw [Live.view_dirty, Body.view_node, Tree.rest_node, List.length_map]
          refine ⟨ht.1, ht.2.1, ht.2.2.1, fun d hd => ?_⟩
          obtain ⟨c, hc, rfl⟩ := List.mem_map.mp hd
          exact ih (Body.sound_node.mp hS.2.2 c hc) (ht.2.2.2 _ (List.mem_map_of_mem hc))
    · exact Tree.rest_clean.mp ht

lemma Live.rootRest_view (hS : Live.Sound (fun _ d => d.RootRest prm) t)
    (ht : (Live.plain t).RootRest prm) :
    (Live.view true t).RootRest prm := by
  cases h with
  | succ h => exact Live.rest_view hS ht
  | zero =>
    rcases t with ⟨id, dirty, dk, x⟩ | ⟨id, d⟩
    · cases dirty with
      | true => exact ht
      | false =>
        obtain ⟨d, rfl, o, rfl⟩ := hS.2.1 rfl
        exact ht
    · exact ht

lemma Live.offs_publish {P : (h : ℕ) → VTree h → Prop} (hS : Live.Sound P t) :
    (Live.publish off t).offs.Perm
      ((Live.written t).map (fun x => off x.1) ++ (Live.view true t).offs) := by
  induction h with
  | zero =>
    rcases t with ⟨id, dirty, dk, x⟩ | ⟨id, d⟩
    · cases dirty with
      | true => exact List.Perm.refl _
      | false =>
        obtain ⟨d, rfl, -⟩ := hS.2.1 rfl
        exact List.Perm.refl _
    · exact List.Perm.refl _
  | succ h ih =>
    rcases t with ⟨id, dirty, dk, x⟩ | ⟨id, d⟩
    · cases dirty with
      | false =>
        obtain ⟨d, rfl, -⟩ := hS.2.1 rfl
        exact List.Perm.refl _
      | true =>
        induction x using Body.succCases with
        | hn ps cs b =>
          have hkids : (cs.flatMap fun c => (Live.publish off c).offs).Perm
              ((cs.flatMap fun c => (Live.written c).map fun x => off x.1) ++ cs.flatMap
                fun c => (Live.view true c).offs) :=
            (List.Perm.flatMap_left cs fun c hc => ih (Body.sound_node.mp hS.2.2 c hc)).trans
              (List.flatMap_append_perm cs _ _).symm
          have hrev : (cs.flatMap fun c => (Live.written c).map fun x => off x.1).Perm
              ((cs.reverse.flatMap Live.written).map fun x => off x.1) := by
            rw [List.map_flatMap]
            exact ((List.reverse_perm cs).flatMap_right _).symm
          simp only [Live.publish_dirty, Body.publish_node, Tree.offs_node, Live.written_dirty,
            Body.written_node, Live.view_dirty,
            Body.view_node, Option.toList_some, Option.toList_none, List.nil_append, List.map_cons,
            List.cons_append, List.flatMap_map]
          exact (hkids.trans (hrev.append_right _)).cons _
    · exact List.Perm.refl _

end Trees
end Beetree
