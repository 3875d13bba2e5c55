import ChubaoFS.ExtentDelFiles

namespace ChubaoFS

open List Function OrdTree UInt64 DelReplica Nat Bytes

/-! What stands before the cursors of the files. -/

def keyBytes (keys : List ExtentKey) : Bytes := keys.flatMap ExtentKey.marshalBinary

/-- A file with its cursor behind the first `j` places. -/
def logBytes (j : Nat) (keys : List ExtentKey) : Bytes :=
  putUInt64 (UInt64.ofNat (8 + 40 * j)) ++ keyBytes keys

def cursorOf (content : Bytes) : Nat := (toUInt64 (content.take 8)).toNat

def keysBefore (content : Bytes) : List ExtentKey :=
  decodeKeys ((content.drop 8).take (cursorOf content - 8))

variable {keys : List ExtentKey}

section format

variable {j n len : Nat}

@[simp] theorem length_keyBytes (keys : List ExtentKey) : (keyBytes keys).length =
    40 * keys.length := by
  induction keys with
  | nil => rfl
  | cons k keys ih =>
    unfold keyBytes at ih ⊢
    rw [flatMap_cons, length_append, ih, ExtentKey.length_marshalBinary, length_cons]
    omega

@[simp] theorem length_logBytes (j : Nat) (keys : List ExtentKey) :
    (logBytes j keys).length = 8 + 40 * keys.length := by
  simp [logBytes]

theorem keyBytes_append (keys keys' : List ExtentKey) :
    keyBytes (keys ++ keys') = keyBytes keys ++ keyBytes keys' := flatMap_append

theorem drop_keyBytes (keys : List ExtentKey) (j : Nat) :
    (keyBytes keys).drop (40 * j) = keyBytes (keys.drop j) := by
  by_cases hj : j ≤ keys.length
  · have hsplit : keyBytes keys = keyBytes (keys.take j) ++ keyBytes (keys.drop j) := by
      rw [← keyBytes_append, take_append_drop]
    rw [hsplit, drop_left']
    rw [length_keyBytes, length_take, min_eq_left hj]
  rw [drop_of_length_le (by rw [length_keyBytes]; omega), drop_of_length_le (by omega)]
  rfl

theorem unmarshal_marshalBinary (k : ExtentKey) :
    (ExtentKey.unmarshalBinary.exec default k.marshalBinary).1 = k := by
  have h := ExtentKey.unmarshalBinary_marshalBinary default k []
  rw [append_nil] at h
  unfold Decode.exec
  rw [h]

theorem decodeKeys_take (h : len ≤ 40 * keys.length) :
    decodeKeys ((keyBytes keys).take len) = keys.take (len / 40) := by
  have hlen : ((keyBytes keys).take len).length = len := by
    rw [length_take, length_keyBytes]
    omega
  unfold decodeKeys extentLength
  rw [hlen]
  refine ext_getElem ?_ fun i hi hi' => ?_
  · rw [length_map, length_range, length_take]
    omega
  · rw [length_map, length_range] at hi
    have hkeys : i < keys.length := by omega
    rw [getElem_map, getElem_range, getElem_take, drop_take, take_take,
      min_eq_left (by omega), drop_keyBytes, drop_eq_getElem_cons hkeys]
    unfold keyBytes
    rw [flatMap_cons, take_left' (ExtentKey.length_marshalBinary _)]
    exact unmarshal_marshalBinary _

theorem decodeKeys_keyBytes (keys : List ExtentKey) : decodeKeys (keyBytes keys) = keys := by
  have h : decodeKeys ((keyBytes keys).take (40 * keys.length)) = _ :=
    decodeKeys_take (Nat.le_refl _)
  rw [Nat.mul_div_cancel_left _ (by omega), take_length,
    take_of_length_le (by rw [length_keyBytes])] at h
  exact h

variable (j) (keys)

@[simp] theorem drop_logBytes : (logBytes j keys).drop 8 = keyBytes keys :=
    drop_left' (length_putUInt64 _)

@[simp] theorem keysOf_logBytes : keysOf (logBytes j keys) = keys := by
  unfold keysOf
  rw [drop_logBytes, decodeKeys_keyBytes]

theorem toUInt64_logBytes : toUInt64 ((logBytes j keys).take 8) = ofNat (8 + 40 * j) := by
  unfold logBytes
  rw [take_left' (length_putUInt64 _), toUInt64_putUInt64]

variable {keys} {j}

theorem cursorOf_logBytes (h : j ≤ 262145) : cursorOf (logBytes j keys) = 8 + 40 * j := by
  unfold cursorOf
  rw [toUInt64_logBytes, toNat_ofNat', mod_eq_of_lt (by omega)]

theorem keysBefore_logBytes (h : j ≤ 262145) : keysBefore (logBytes j keys) = keys.take j := by
  unfold keysBefore
  rw [cursorOf_logBytes h, drop_logBytes, Nat.add_sub_cancel_left]
  by_cases hj : j ≤ keys.length
  · rw [decodeKeys_take (by omega), Nat.mul_div_cancel_left _ (by omega)]
  · rw [take_of_length_le (by rw [length_keyBytes]; omega), decodeKeys_keyBytes,
      take_of_length_le (by omega)]

theorem logBytes_append (k : ExtentKey) :
    logBytes j keys ++ k.marshalBinary = logBytes j (keys ++ [k]) := by
  unfold logBytes
  rw [keyBytes_append, append_assoc]
  congr 2

theorem writeAt_logBytes (n : Nat) :
    writeAt (logBytes j keys) (putUInt64 (ofNat (8 + 40 * n))) 0 = logBytes n keys := by
  unfold writeAt
  rw [take_zero, Nat.zero_sub, length_putUInt64, Nat.zero_add, drop_logBytes]
  rfl

theorem writeAt_nil (n : Nat) : writeAt [] (putUInt64 (ofNat (8 + 40 * n))) 0 = logBytes n [] := rfl

end format

structure LogFile (H : ExtentKey → Prop) (f : DelFile) (j : Nat) (keys : List ExtentKey) :
    Prop where
  content : f.content = logBytes j keys
  cursor : j ≤ 262145
  length : keys.length ≤ 262145
  before : ∀ k ∈ keys.take j, H k

variable {j : Nat} {cursor : UInt64}

theorem LogFile.mono {H H' : ExtentKey → Prop} {f : DelFile} (h : LogFile H f j keys)
    (hH : ∀ k, H k → H' k) : LogFile H' f j keys :=
  { h with before := fun k hk => hH k (h.before k hk) }

structure DirOk (H : ExtentKey → Prop) (dir : DelDir) (top : DelFileName) : Prop where
  files : ∀ f ∈ dir.items, ∃ j keys, LogFile H f j keys
  last : ∃ f ∈ dir.items, f.name = top ∧ ∃ j keys, LogFile H f j keys ∧ j ≤ keys.length
  upTo : ∀ f ∈ dir.items, f.name ≤ top

structure DelReplica.Ok (H : ExtentKey → Prop) (x : DelReplica) : Prop where
  dir : DirOk H x.dir x.fileName
  linked : x.linked = true
  size : (contentOf x.dir x.fileName).length ≤ x.fileSize + 8
  pass : ∀ name cursor before keys, x.pass = .deleting name cursor before keys →
    cursor = UInt64.ofNat (8 + 40 * before.length) ∧ before.length ≤ 262145 ∧
      ∀ k ∈ before, H k ∨ k ∈ keys

section replica

variable {H H' : ExtentKey → Prop} {dir : DelDir} {x : DelReplica} {name last : DelFileName}
  {f : DelFile}

theorem contentOf_eq (h : f ∈ dir.items) : contentOf dir f.name = f.content := by
  unfold contentOf
  rw [get?_eq_some_iff.mpr ⟨h, rfl⟩]

theorem contentOf_eq_nil (h : ∀ f ∈ dir.items, f.name ≠ name) : contentOf dir name = [] := by
  unfold contentOf
  rw [get?_eq_none_iff.mpr h]

theorem contentOf_insert (dir : DelDir) (f : DelFile) :
    contentOf (dir.insert f) f.name = f.content :=
  contentOf_eq (mem_insert.mpr (.inl rfl))

theorem contentOf_insert_ne (h : name ≠ f.name) :
    contentOf (dir.insert f) name = contentOf dir name := by
  unfold contentOf
  rw [get?_insert, if_neg h]

section

variable (h : DirOk H dir last)
include h

theorem DirOk.mono (hH : ∀ k, H k → H' k) : DirOk H' dir last where
  files := fun f hf => by
    obtain ⟨j, keys, hlog⟩ := h.files f hf
    exact ⟨j, keys, hlog.mono hH⟩
  last := by
    obtain ⟨f, hf, hname, j, keys, hlog, hj⟩ := h.last
    exact ⟨f, hf, hname, j, keys, hlog.mono hH, hj⟩
  upTo := h.upTo

theorem DirOk.insert (hf : LogFile H f j keys) (hlast : f.name = last → j ≤ keys.length)
    (hle : f.name ≤ last) : DirOk H (dir.insert f) last where
  files := by
    intro g hg
    obtain rfl | ⟨hg, _⟩ := mem_insert.mp hg
    · exact ⟨j, keys, hf⟩
    · exact h.files g hg
  last := by
    by_cases hname : f.name = last
    · exact ⟨f, mem_insert.mpr (.inl rfl), hname, j, keys, hf, hlast hname⟩
    · obtain ⟨g, hg, hgname, hgood⟩ := h.last
      exact ⟨g, mem_insert.mpr (.inr ⟨hg, hgname ▸ Ne.symm hname⟩), hgname, hgood⟩
  upTo := by
    intro g hg
    obtain rfl | ⟨hg, _⟩ := mem_insert.mp hg
    · exact hle
    · exact h.upTo g hg

theorem DirOk.insert_last (hf : LogFile H f j keys) (hj : j ≤ keys.length)
    (hlt : ∀ g ∈ dir.items, g.name < f.name) : DirOk H (dir.insert f) f.name where
  files := by
    intro g hg
    obtain rfl | ⟨hg, _⟩ := mem_insert.mp hg
    · exact ⟨j, keys, hf⟩
    · exact h.files g hg
  last := ⟨f, mem_insert.mpr (.inl rfl), rfl, j, keys, hf, hj⟩
  upTo := by
    intro g hg
    obtain rfl | ⟨hg, _⟩ := mem_insert.mp hg
    · exact le_refl _
    · exact le_of_lt (hlt g hg)

theorem DirOk.max? : ∃ f, dir.max? = some f ∧ f.name = last := by
  obtain ⟨f, hf, hname, _⟩ := h.last
  cases hmax : dir.max? with
  | none =>
    have hnil : dir.items = [] := getLast?_eq_none_iff.mp hmax
    rw [hnil] at hf
    cases hf
  | some m =>
    refine ⟨m, rfl, ?_⟩
    obtain rfl | hlt := key_lt_of_max? hmax hf
    · exact hname
    · have := h.upTo m (mem_of_max? hmax)
      rw [← hname] at this
      exact absurd hlt (not_lt.mpr this)

end

theorem DelReplica.Ok.scan (h : DirOk H x.dir last)
    (hpass : ∀ name cursor before keys, x.pass ≠ .deleting name cursor before keys) :
    x.scan.Ok H := by
  obtain ⟨f, hmax, rfl⟩ := h.max?
  unfold scan
  rw [hmax]
  refine ⟨h, rfl, ?_, ?_⟩
  · dsimp only
    rw [contentOf_eq (mem_of_max? hmax)]
    exact le_add_right _ _
  · exact fun name cursor before keys hp => absurd hp (hpass name cursor before keys)

theorem DelReplica.Ok.mono (h : x.Ok H) (hH : ∀ k, H k → H' k) : x.Ok H' where
  dir := h.dir.mono hH
  __ := h
  pass := by
    intro name cursor before keys hp
    obtain ⟨hc, hlen, hb⟩ := h.pass name cursor before keys hp
    exact ⟨hc, hlen, fun k hk => (hb k hk).imp_left (hH k)⟩

theorem DelReplica.Ok.rotate (h : x.Ok H)
    (hnew : ∀ f ∈ x.dir.items, f.name < delFileName (x.idx + 1)) : x.rotate.Ok H := by
  have hno : contentOf x.dir (delFileName (x.idx + 1)) = [] :=
    contentOf_eq_nil fun f hf => ne_of_lt (hnew f hf)
  unfold DelReplica.rotate
  dsimp only
  rw [hno]
  refine ⟨?_, rfl, ?_, h.pass⟩
  · have hempty : LogFile H ⟨delFileName (x.idx + 1), [] ++ extentsFileHeader⟩ 0 [] :=
      ⟨rfl, zero_le _, zero_le _, nofun⟩
    exact h.dir.insert_last hempty (le_refl 0) hnew
  · dsimp only
    rw [contentOf_insert x.dir ⟨delFileName (x.idx + 1), [] ++ extentsFileHeader⟩]
    exact le_add_right 8 8

theorem DelReplica.Ok.writeKey (h : x.Ok H) (hsize : x.fileSize < maxDeleteExtentSize)
    (ek : ExtentKey) : (x.writeKey ek).Ok H := by
  obtain ⟨f, hf, hname, j, keys, hlog, hj⟩ := h.dir.last
  have hcontent : contentOf x.dir x.fileName = logBytes j keys := by
    rw [← hname, contentOf_eq hf, hlog.content]
  have hlen := h.size
  rw [hcontent, length_logBytes] at hlen
  have hroom : keys.length < 262145 := by
    unfold maxDeleteExtentSize mb at hsize
    omega
  unfold DelReplica.writeKey
  rw [if_pos h.linked, hcontent, logBytes_append]
  refine ⟨?_, h.linked, ?_, h.pass⟩
  · have hnew : LogFile H ⟨x.fileName, logBytes j (keys ++ [ek])⟩ j (keys ++ [ek]) := by
      refine ⟨rfl, hlog.cursor, ?_, ?_⟩
      · rw [List.length_append]
        exact hroom
      · rw [List.take_append_of_le_length hj]
        exact hlog.before
    refine h.dir.insert hnew (fun _ => ?_) (le_refl _)
    rw [List.length_append]
    exact le_add_right_of_le hj
  · dsimp only
    rw [contentOf_insert x.dir ⟨x.fileName, logBytes j (keys ++ [ek])⟩, length_logBytes,
      List.length_append]
    unfold extentLength
    dsimp only [List.length_cons, List.length_nil]
    omega

theorem DelReplica.Ok.append (h : x.Ok H) (hnew : maxDeleteExtentSize ≤ x.fileSize →
      ∀ f ∈ x.dir.items, f.name < delFileName (x.idx + 1)) (ek : ExtentKey) :
    (x.append ek).Ok H := by
  unfold DelReplica.append
  split
  next hfull => exact (h.rotate (hnew hfull)).writeKey (by decide : 8 < maxDeleteExtentSize) ek
  next hroom => exact h.writeKey (Nat.lt_of_not_le hroom) ek

def DelReplica.Fits (x : DelReplica) (name : DelFileName) (seen : List ExtentKey) : Prop :=
  (keysOf (contentOf x.dir name)).take seen.length = seen ∧ (x.dir.get? name).isSome = true ∨
    keysOf (contentOf x.dir name) = [] ∧ name < x.fileName

instance DelReplica.decidableFits (x : DelReplica) (name : DelFileName) (seen : List ExtentKey) :
    Decidable (x.Fits name seen) := inferInstanceAs (Decidable (_ ∧ _ ∨ _ ∧ _))

theorem DelReplica.Ok.setCursor (h : x.Ok H) {seen : List ExtentKey} (hfits : x.Fits name seen)
    (hlen : seen.length ≤ 262145) (hseen : ∀ k ∈ seen, H k) :
    (x.setExtentDeleteFileCursor name (ofNat (8 + 40 * seen.length))).Ok H := by
  have hput {f : DelFile} (keys : List ExtentKey) (hf : LogFile H f seen.length keys)
      (hlast : f.name = x.fileName → seen.length ≤ keys.length) (hle : f.name ≤ x.fileName)
      (hsize : f.name = x.fileName → f.content.length ≤ (contentOf x.dir x.fileName).length) :
      DelReplica.Ok H { x with dir := x.dir.insert f } := by
    refine ⟨h.dir.insert hf hlast hle, h.linked, ?_, h.pass⟩
    dsimp only
    by_cases hname : f.name = x.fileName
    · rw [← hname, contentOf_insert]
      exact le_trans (hsize hname) h.size
    · rw [contentOf_insert_ne (Ne.symm hname)]
      exact h.size
  unfold setExtentDeleteFileCursor
  cases hget : x.dir.get? name with
  | none =>
    have hcontent : contentOf x.dir name = [] := by
      unfold contentOf
      rw [hget]
    rw [hcontent, writeAt_nil]
    obtain ⟨_, hsome⟩ | ⟨_, hlt⟩ := hfits
    · rw [hget] at hsome
      cases hsome
    · refine hput [] ⟨rfl, hlen, zero_le _, ?_⟩ (fun heq => absurd heq (ne_of_lt hlt))
        (le_of_lt hlt) (fun heq => absurd heq (ne_of_lt hlt))
      rw [take_nil]
      nofun
  | some f =>
    obtain ⟨hf, rfl⟩ := get?_eq_some_iff.mp hget
    obtain ⟨j, keys, hlog⟩ := h.dir.files f hf
    have hcontent : contentOf x.dir f.name = logBytes j keys := by
      rw [contentOf_eq hf, hlog.content]
    have hsize (heq : f.name = x.fileName) : (logBytes seen.length keys).length ≤
        (contentOf x.dir x.fileName).length := by
      rw [← heq, hcontent, length_logBytes, length_logBytes]
    unfold DelReplica.Fits at hfits
    rw [hcontent, keysOf_logBytes] at hfits
    rw [hcontent, writeAt_logBytes]
    obtain ⟨htake, _⟩ | ⟨rfl, hlt⟩ := hfits
    · refine hput keys ⟨rfl, hlen, hlog.length, ?_⟩ ?_ (h.dir.upTo f hf) hsize
      · rw [htake]
        exact hseen
      · intro _
        have := congrArg length htake
        rw [length_take] at this
        omega
    · refine hput [] ⟨rfl, hlen, zero_le _, ?_⟩ (fun heq => absurd heq (ne_of_lt hlt))
        (le_of_lt hlt) hsize
      rw [take_nil]
      nofun

theorem mem_removeUpTo : f ∈ (removeUpTo dir name).items ↔ f ∈ dir.items ∧ name < f.name := by
  unfold removeUpTo
  rw [mem_filter, decide_eq_true_eq]

theorem contentOf_removeUpTo (h : name < last) :
    contentOf (removeUpTo dir name) last = contentOf dir last := by
  unfold contentOf
  congr 1
  cases hget : dir.get? last with
  | none =>
    rw [get?_eq_none_iff] at hget ⊢
    exact fun f hf => hget f (mem_removeUpTo.mp hf).1
  | some f =>
    obtain ⟨hf, rfl⟩ := get?_eq_some_iff.mp hget
    exact get?_eq_some_iff.mpr ⟨mem_removeUpTo.mpr ⟨hf, h⟩, rfl⟩

theorem DelReplica.Ok.delOld (h : x.Ok H) (hlt : name < x.fileName) :
    (x.delOldExtentFile name).Ok H := by
  unfold delOldExtentFile
  refine ⟨⟨?_, ?_, ?_⟩, ?_, ?_, h.pass⟩
  · exact fun f hf => h.dir.files f (mem_removeUpTo.mp hf).1
  · obtain ⟨f, hf, hname, hgood⟩ := h.dir.last
    exact ⟨f, mem_removeUpTo.mpr ⟨hf, hname ▸ hlt⟩, hname, hgood⟩
  · exact fun f hf => h.dir.upTo f (mem_removeUpTo.mp hf).1
  · dsimp only
    rw [h.linked, decide_eq_true hlt]
    rfl
  · dsimp only
    rw [contentOf_removeUpTo hlt]
    exact h.size

variable {l : List DelFile}

theorem mem_foldl_insert (h : f ∈ (l.foldl OrdTree.insert dir).items) : f ∈ l ∨ f ∈ dir.items := by
  induction l generalizing dir with
  | nil => exact .inr h
  | cons g l ih =>
    obtain h | h := ih h
    · exact .inl (List.mem_cons_of_mem _ h)
    · obtain rfl | ⟨h, _⟩ := OrdTree.mem_insert.mp h
      · exact .inl (List.mem_cons_self ..)
      · exact .inr h

theorem mem_foldl_insert_of_mem (hf : f ∈ dir.items) (hno : ∀ g ∈ l, g.name ≠ f.name) :
    f ∈ (l.foldl OrdTree.insert dir).items := by
  induction l generalizing dir with
  | nil => exact hf
  | cons g l ih =>
    refine ih (OrdTree.mem_insert.mpr (.inr ⟨hf, ?_⟩)) fun g' hg' =>
      hno g' (List.mem_cons_of_mem _ hg')
    exact Ne.symm (hno g (List.mem_cons_self ..))

theorem mem_foldl_insert_self (hl : l.Pairwise fun a b => a.name < b.name) (hf : f ∈ l) :
    f ∈ (l.foldl OrdTree.insert dir).items := by
  induction l generalizing dir with
  | nil => cases hf
  | cons g l ih =>
    obtain ⟨hg, hl⟩ := List.pairwise_cons.mp hl
    obtain rfl | hf := List.mem_cons.mp hf
    · exact mem_foldl_insert_of_mem (l := l) (OrdTree.mem_insert.mpr (.inl rfl))
        fun g' hg' => Ne.symm (ne_of_lt (hg g' hg'))
    · exact ih hl hf

theorem DirOk.overwrite (h : DirOk H dir last) {snap : DelDir} {top : DelFileName}
    (hs : DirOk H snap top) : DirOk H (snap.items.foldl OrdTree.insert dir) (max last top) where
  files := by
    intro f hf
    obtain hf | hf := mem_foldl_insert hf
    · exact hs.files f hf
    · exact h.files f hf
  last := by
    obtain ⟨t, ht, rfl, htgood⟩ := hs.last
    obtain ⟨f, hf, rfl, hfgood⟩ := h.last
    by_cases hle : f.name ≤ t.name
    · exact ⟨t, mem_foldl_insert_self snap.sorted ht, (max_eq_right hle).symm, htgood⟩
    have hlt : t.name < f.name := lt_of_not_ge hle
    refine ⟨f, mem_foldl_insert_of_mem hf fun g hg => ?_, (max_eq_left (le_of_lt hlt)).symm, hfgood⟩
    exact ne_of_lt (lt_of_le_of_lt (hs.upTo g hg) hlt)
  upTo := by
    intro f hf
    obtain hf | hf := mem_foldl_insert hf
    · exact le_max_of_le_right (hs.upTo f hf)
    · exact le_max_of_le_left (h.upTo f hf)

end replica

theorem passRead_logBytes {size : Nat} {buf : Bytes} (hj : j ≤ 262145)
    (h : passRead (logBytes j keys) size = some (.data cursor buf)) :
    cursor = ofNat (8 + 40 * j) ∧ ∃ n, j + n ≤ keys.length ∧
      buf.length - buf.length % extentLength = 40 * n ∧ decodeKeys buf = (keys.drop j).take n := by
  unfold passRead at h
  rw [readAt, if_pos (by rw [length_logBytes]; omega), drop_zero] at h
  dsimp only at h
  rw [toUInt64_logBytes] at h
  have hcursor : (ofNat (8 + 40 * j)).toNat = 8 + 40 * j := by
    rw [toNat_ofNat', mod_eq_of_lt (by omega)]
  split at h
  · cases h
  rename_i len _
  rw [hcursor] at h
  split at h
  · cases h
  split at h
  · cases h
  next b hread =>
    obtain ⟨rfl, rfl⟩ := PassRead.data.inj (Option.some.inj h)
    unfold readAt at hread
    split at hread
    next hle =>
      cases hread
      rw [length_logBytes] at hle
      have hdrop : (logBytes j keys).drop (8 + 40 * j) = keyBytes (keys.drop j) := by
        rw [← drop_drop, drop_logBytes, drop_keyBytes]
      have hlen : ((keyBytes (keys.drop j)).take len).length = len := by
        rw [length_take, length_keyBytes, length_drop]
        omega
      rw [hdrop, hlen]
      refine ⟨rfl, len / 40, by omega, ?_, decodeKeys_take ?_⟩
      · unfold extentLength
        omega
      · rw [length_drop]
        omega
    · cases hread

namespace DelCluster

def Handled (s : DelCluster) (k : ExtentKey) : Prop := k ∈ s.deleted ∨ k ∈ s.requeued

structure Ok (s : DelCluster) : Prop where
  replicas : ∀ r, (s.replicas r).Ok s.Handled
  log : ∀ c ∈ s.log, ∀ name cursor, c.cmd = .setCursor name cursor →
    cursor = UInt64.ofNat (8 + 40 * c.seen.length) ∧ c.seen.length ≤ 262145 ∧
      ∀ k ∈ c.seen, s.Handled k
  snaps : ∀ d ∈ s.snaps, ∃ top, DirOk s.Handled d top

end DelCluster

def DelReplica.Suits (x : DelReplica) (c : LoggedCmd) : Prop :=
  match c.cmd with
  | .setCursor name _ => x.Fits name c.seen
  | .delOld name => name < x.fileName

instance DelReplica.decidableSuits (x : DelReplica) (c : LoggedCmd) : Decidable (x.Suits c) :=
  match c with
  | ⟨.setCursor name _, seen⟩ => inferInstanceAs (Decidable (x.Fits name seen))
  | ⟨.delOld name, _⟩ => inferInstanceAs (Decidable (name < x.fileName))

def PassPhase.isIdle : PassPhase → Bool
  | .idle => true
  | _ => false

def DelReplica.RotatesOn (x : DelReplica) : Prop :=
  maxDeleteExtentSize ≤ x.fileSize → ∀ f ∈ x.dir.items, f.name < delFileName (x.idx + 1)

instance DelReplica.decidableRotatesOn (x : DelReplica) : Decidable x.RotatesOn :=
    inferInstanceAs (Decidable (_ → _))

namespace DelCluster

/-- A file that is full is followed by the next one, a command from the log suits the replica's
files, and no snapshot comes in the middle of a pass. -/
def Agreed (s : DelCluster) : Event → Prop
  | .append r => (s.replicas r).RotatesOn
  | .apply r k => ∀ c ∈ s.log[k]?, (s.replicas r).Suits c
  | .applySnapshot r _ => (s.replicas r).pass.isIdle = true
  | _ => True

instance (s : DelCluster) (e : Event) : Decidable (s.Agreed e) :=
  match e with
  | .append r => inferInstanceAs (Decidable (s.replicas r).RotatesOn)
  | .apply r k => inferInstanceAs (Decidable (∀ c ∈ s.log[k]?, (s.replicas r).Suits c))
  | .applySnapshot r _ => inferInstanceAs (Decidable ((s.replicas r).pass.isIdle = true))
  | .enqueue .. | .restart _ | .takeSnapshot _ | .stat .. | .read _ | .look .. | .delete ..
  | .put .. => isTrue trivial

variable {s s' : DelCluster} {r : Nat} {x : DelReplica}

section

variable (h : s.Ok)
include h

theorem Ok.setReplica (hx : x.Ok s.Handled) : (s.setReplica r x).Ok where
  replicas := by
    intro q
    unfold DelCluster.setReplica
    dsimp only
    by_cases hq : q = r
    · subst hq
      rw [update_self]
      exact hx
    · rw [update_of_ne hq]
      exact h.replicas q
  __ := h

theorem Ok.mono (hreplicas : s'.replicas = s.replicas) (hlog : s'.log = s.log)
    (hsnaps : s'.snaps = s.snaps) (hH : ∀ k, s.Handled k → s'.Handled k) : s'.Ok where
  replicas := fun r => hreplicas ▸ (h.replicas r).mono hH
  log := by
    intro c hc name cursor hcmd
    obtain ⟨hcur, hlen, hseen⟩ := h.log c (hlog ▸ hc) name cursor hcmd
    exact ⟨hcur, hlen, fun k hk => hH k (hseen k hk)⟩
  snaps := by
    intro d hd
    obtain ⟨top, hok⟩ := h.snaps d (hsnaps ▸ hd)
    exact ⟨top, hok.mono hH⟩

theorem Ok.logged {c : LoggedCmd} (hc : ∀ name cursor, c.cmd = .setCursor name cursor →
    cursor = ofNat (8 + 40 * c.seen.length) ∧ c.seen.length ≤ 262145 ∧
      ∀ k ∈ c.seen, s.Handled k) : { s with log := s.log ++ [c] }.Ok where
  __ := h
  log := by
    intro c' hc'
    obtain hc' | hc' := mem_append.mp hc'
    · exact h.log c' hc'
    · exact mem_singleton.mp hc' ▸ hc

theorem Ok.setPass (r : Nat) (pass : PassPhase)
    (hpass : ∀ name cursor before keys, pass = .deleting name cursor before keys →
      cursor = ofNat (8 + 40 * before.length) ∧ before.length ≤ 262145 ∧
        ∀ k ∈ before, s.Handled k ∨ k ∈ keys) :
    (s.setReplica r { s.replicas r with pass := pass }).Ok :=
  h.setReplica ⟨(h.replicas r).dir, (h.replicas r).linked, (h.replicas r).size, hpass⟩

theorem Ok.readFile (hs : s.readFile r = some s') : s'.Ok := by
  unfold DelCluster.readFile at hs
  dsimp only at hs
  split at hs
  next name size hpass =>
    split at hs
    · cases hs
    rename_i f hget
    obtain ⟨hf, rfl⟩ := get?_eq_some_iff.mp hget
    obtain ⟨j, keys, hlog⟩ := (h.replicas r).dir.files f hf
    split at hs
    · cases hs
    · cases hs
      exact h.setPass r _ nofun
    · cases hs
      exact h.setPass r _ nofun
    next cursor buf hread =>
      cases hs
      rw [hlog.content] at hread
      obtain ⟨rfl, n, hn, hlen, hkeys⟩ := passRead_logBytes hlog.cursor hread
      have hle := hlog.length
      have hcursor : ofNat (8 + 40 * j) + ofNat (40 * n) = ofNat (8 + 40 * (j + n)) := by
        rw [← ofNat_add]
        congr 1
        omega
      have htoNat : (ofNat (8 + 40 * (j + n))).toNat = 8 + 40 * (j + n) := by
        rw [toNat_ofNat', Nat.mod_eq_of_lt (by omega)]
      have hbefore : decodeKeys ((f.content.drop 8).take (8 + 40 * (j + n) - 8)) =
          keys.take (j + n) := by
        rw [hlog.content, drop_logBytes, Nat.add_sub_cancel_left, decodeKeys_take (by omega),
          Nat.mul_div_cancel_left _ (by omega)]
      rw [hlen, hcursor, htoNat, hbefore, hkeys]
      refine Ok.mono (h.setPass r (.deleting f.name
        (ofNat (8 + 40 * (j + n))) (keys.take (j + n)) ((keys.drop j).take n)) ?_)
        rfl rfl rfl fun _ hk => hk
      rintro name cursor before rest ⟨rfl, rfl, rfl, rfl⟩
      have htake : (keys.take (j + n)).length = j + n := by
        rw [length_take]
        omega
      refine ⟨by rw [htake], by omega, ?_⟩
      intro k hk
      rw [take_add] at hk
      exact (mem_append.mp hk).imp_left (hlog.before k)
  · cases hs

theorem Ok.stat {isLeader : Bool} (hs : s.stat r isLeader = some s') : s'.Ok := by
  unfold DelCluster.stat at hs
  dsimp only at hs
  split at hs
  next hpass _ =>
    split at hs
    · cases hs
      refine h.setReplica ⟨(h.replicas r).dir, (h.replicas r).linked, (h.replicas r).size, ?_⟩
      exact (h.replicas r).pass
    split at hs
    · cases hs
      exact h.setPass r _ nofun
    · exact Option.some.inj hs ▸ h
  · cases hs

theorem Ok.delete {name : DelFileName} {before rest : List ExtentKey}
    {ek : ExtentKey} (hpass : (s.replicas r).pass = .deleting name cursor before (ek :: rest))
    (hH : ∀ k, s.Handled k → s'.Handled k) (hek : s'.Handled ek)
    (hreplicas : s'.replicas = update s.replicas r
      { s.replicas r with pass := .deleting name cursor before rest
                          extDelCh := ((s'.replicas) r).extDelCh })
    (hlog : s'.log = s.log) (hsnaps : s'.snaps = s.snaps) : s'.Ok := by
  have hmono : DelCluster.Ok { s' with replicas := s.replicas } := h.mono rfl hlog hsnaps hH
  have hx := (h.replicas r).mono hH
  obtain ⟨hcur, hlen, hb⟩ := (h.replicas r).pass _ _ _ _ hpass
  have hset := hmono.setReplica (r := r) (x := { s.replicas r with
      pass := .deleting name cursor before rest
      extDelCh := ((s'.replicas) r).extDelCh }) { hx with pass := ?_ }
  · unfold DelCluster.setReplica at hset
    dsimp only at hset
    rw [← hreplicas] at hset
    exact hset
  · rintro _ _ _ _ ⟨rfl, rfl, rfl, rfl⟩
    refine ⟨hcur, hlen, fun k hk => ?_⟩
    obtain hk | hk := hb k hk
    · exact .inl (hH k hk)
    · obtain rfl | hk := mem_cons.mp hk
      · exact .inl hek
      · exact .inr hk

theorem ok_step {e : Event} (ha : s.Agreed e) (hs : s.step e = some s') : s'.Ok := by
  cases e with
  | enqueue r ek =>
    cases hs
    exact h.setReplica ⟨(h.replicas r).dir, (h.replicas r).linked, (h.replicas r).size,
      (h.replicas r).pass⟩
  | append r =>
    dsimp only [step] at hs
    split at hs
    · cases hs
    rename_i ek rest _
    cases hs
    have hx : DelReplica.Ok s.Handled { s.replicas r with extDelCh := rest } :=
      ⟨(h.replicas r).dir, (h.replicas r).linked, (h.replicas r).size, (h.replicas r).pass⟩
    exact h.setReplica (hx.append ha ek)
  | restart r =>
    cases hs
    refine h.setReplica (DelReplica.Ok.scan (h.replicas r).dir nofun)
  | takeSnapshot r =>
    cases hs
    refine { h with snaps := fun d hd => ?_ }
    obtain hd | hd := mem_append.mp hd
    · exact h.snaps d hd
    · exact ⟨_, mem_singleton.mp hd ▸ (h.replicas r).dir⟩
  | applySnapshot r k =>
    obtain ⟨snap, hsnap, rfl⟩ := Option.map_eq_some_iff.mp hs
    obtain ⟨top, hok⟩ := h.snaps snap (mem_of_getElem? hsnap)
    refine h.setReplica (DelReplica.Ok.scan ((h.replicas r).dir.overwrite hok) ?_)
    intro name cursor before keys hp
    have hidle : (s.replicas r).pass.isIdle = true := ha
    rw [show (s.replicas r).pass = .deleting name cursor before keys from hp] at hidle
    cases hidle
  | stat r isLeader => exact h.stat hs
  | read r => exact h.readFile hs
  | look r logged =>
    dsimp only [step] at hs
    split at hs
    next name _ =>
      split at hs
      · cases hs
        exact (h.setPass r .idle nofun).logged nofun
      · cases hs
        exact h.setPass r _ nofun
    · cases hs
  | delete r ok =>
    dsimp only [step] at hs
    split at hs
    next name cursor before ek rest hpass =>
      split at hs
      · cases hs
        refine h.delete hpass (fun k hk => hk.imp_left (mem_cons_of_mem _))
          (.inl (mem_cons_self ..)) ?_ rfl rfl
        unfold setReplica
        dsimp only
        rw [update_self]
      cases hs
      refine h.delete hpass (fun k hk => hk.imp_right (mem_cons_of_mem _))
        (.inr (mem_cons_self ..)) ?_ rfl rfl
      unfold setReplica
      dsimp only
      rw [update_self]
    · cases hs
  | put r logged =>
    dsimp only [step] at hs
    split at hs
    next name cursor before hpass =>
      obtain ⟨hcur, hlen, hb⟩ := (h.replicas r).pass _ _ _ _ hpass
      split at hs
      · cases hs
        refine (h.setPass r .idle nofun).logged ?_
        rintro _ _ ⟨rfl, rfl⟩
        exact ⟨hcur, hlen, fun k hk => (hb k hk).resolve_right nofun⟩
      · cases hs
        exact h.setPass r _ nofun
    · cases hs
  | apply r k =>
    obtain ⟨c, hc, rfl⟩ := Option.map_eq_some_iff.mp hs
    have hsuits := ha c hc
    have hlog := h.log c (mem_of_getElem? hc)
    unfold DelReplica.Suits at hsuits
    refine h.setReplica ?_
    unfold applyCmd
    split
    next name cursor hcmd =>
      rw [hcmd] at hsuits
      obtain ⟨rfl, hlen, hseen⟩ := hlog name cursor hcmd
      exact (h.replicas r).setCursor hsuits hlen hseen
    next name hcmd =>
      rw [hcmd] at hsuits
      exact (h.replicas r).delOld hsuits

end

theorem ok_new : new.Ok where
  replicas := by
    intro r
    refine ⟨⟨?_, ?_, ?_⟩, rfl, ?_, nofun⟩
    · intro f hf
      obtain rfl := mem_singleton.mp hf
      exact ⟨0, [], rfl, zero_le _, zero_le _, nofun⟩
    · exact ⟨_, mem_singleton.mpr rfl, rfl, 0, [], ⟨rfl, zero_le _, zero_le _, nofun⟩, le_refl 0⟩
    · intro f hf
      obtain rfl := mem_singleton.mp hf
      exact le_refl _
    · exact le_refl 8
  log := nofun
  snaps := nofun

/-- In every run in which files are opened in the order of their names and commands are carried out
on files that agree with those of the replica that issued them, the keys before the cursor of any
file of any replica were deleted or put into a leader's channel again. -/
theorem keys_before_cursor_handled {s : DelCluster} (hr : Reach step Agreed new s) (r : Nat)
    {f : DelFile} (hf : f ∈ (s.replicas r).dir.items) {k : ExtentKey}
    (hk : k ∈ keysBefore f.content) : k ∈ s.deleted ∨ k ∈ s.requeued := by
  have hok : s.Ok := hr.invariant ok_new fun _ _ _ h ha hs => ok_step h ha hs
  obtain ⟨j, keys, hlog⟩ := (hok.replicas r).dir.files f hf
  rw [hlog.content, keysBefore_logBytes hlog.cursor] at hk
  exact hlog.before k hk

def keyOf (extentId : UInt64) : ExtentKey := ⟨0, 1, extentId, 0, 1, 0⟩

def append2 (r : Nat) : List Event :=
  [.enqueue r (keyOf 1), .append r, .enqueue r (keyOf 2), .append r]

def deletedBoth : List Event :=
  append2 0 ++ append2 1 ++ [.stat 0 true, .read 0, .delete 0 true, .delete 0 true, .put 0 true,
    .apply 0 0, .apply 1 0]

theorem keys_before_cursor_handled_two : ∃ s, Reach step Agreed new s ∧
    ∃ f ∈ (s.replicas 1).dir.items, keyOf 1 ∈ keysBefore f.content ∧
      (keyOf 1 ∈ s.deleted ∨ keyOf 1 ∈ s.requeued) := by
  have hr : Reach step Agreed new _ := .of_checked deletedBoth rfl .start
  have hk : keyOf 1 ∈ keysBefore _ := (by decide +kernel :
    keyOf 1 ∈ keysBefore (logBytes 2 [keyOf 1, keyOf 2]))
  refine ⟨_, hr, _, mem_singleton.mpr rfl, hk, ?_⟩
  exact keys_before_cursor_handled hr 1 (mem_singleton.mpr rfl) hk

def requeuedAlone : List Event :=
  append2 0 ++ append2 1 ++ [.stat 0 true, .read 0, .delete 0 false, .delete 0 true, .put 0 true,
    .apply 0 0, .apply 1 0, .append 0, .stat 0 true, .read 0, .delete 0 true, .put 0 true,
    .enqueue 1 (keyOf 3), .append 1, .apply 1 1]

set_option maxRecDepth 2000 in
/-- The cursor of the other replica is behind a key that nobody dealt with. -/
theorem unhandled_key_before_cursor : ∃ s, Reach step (fun _ _ => True) new s ∧
    ∃ f ∈ (s.replicas 1).dir.items, keyOf 3 ∈ keysBefore f.content ∧
      keyOf 3 ∉ s.deleted ∧ keyOf 3 ∉ s.requeued := by
  refine ⟨_, .of_foldlM requeuedAlone rfl (fun _ _ _ => trivial) .start,
    ⟨delFileName 0, logBytes 3 [keyOf 1, keyOf 2, keyOf 3]⟩, ?_, ?_, ?_, ?_⟩
  all_goals decide +kernel

end DelCluster
end ChubaoFS
