import ChubaoFS.ExtentDelCursor

namespace ChubaoFS

open List Function OrdTree DelReplica List.Subset Bytes

/-! What has become of the keys of the files that are removed. -/

def keysAt (dir : DelDir) (name : DelFileName) : List ExtentKey := keysOf (contentOf dir name)

def PassPhase.found : PassPhase → Option DelFileName
  | .stated name _ => some name
  | .eof name => some name
  | _ => none

section keys

variable {dir : DelDir} {name : DelFileName}

theorem keysAt_eq_nil (h : dir.get? name = none) : keysAt dir name = [] := by
  unfold keysAt contentOf
  rw [h]
  rfl

variable {n : DelFileName} {f : DelFile} {k : ExtentKey}

theorem mem_keysUpTo (hle : n ≤ name) (hk : k ∈ keysAt dir n) :
    k ∈ DelCluster.keysUpTo dir name := by
  cases hget : dir.get? n with
  | none =>
    rw [keysAt_eq_nil hget] at hk
    cases hk
  | some f =>
    obtain ⟨hf, rfl⟩ := get?_eq_some_iff.mp hget
    unfold keysAt at hk
    rw [contentOf_eq hf] at hk
    exact mem_flatMap.mpr ⟨f, mem_filter.mpr ⟨hf, decide_eq_true hle⟩, hk⟩

theorem exists_of_mem_keysUpTo (h : k ∈ DelCluster.keysUpTo dir name) :
    ∃ n ≤ name, k ∈ keysAt dir n := by
  obtain ⟨f, hf, hk⟩ := mem_flatMap.mp h
  obtain ⟨hf, hle⟩ := mem_filter.mp hf
  refine ⟨f.name, of_decide_eq_true hle, ?_⟩
  unfold keysAt
  rw [contentOf_eq hf]
  exact hk

theorem keysAt_insert (dir : DelDir) (f : DelFile) : keysAt (dir.insert f) f.name =
    keysOf f.content :=
  congrArg keysOf (contentOf_insert dir f)

theorem keysAt_insert_ne (h : name ≠ f.name) : keysAt (dir.insert f) name = keysAt dir name :=
  congrArg keysOf (contentOf_insert_ne h)

theorem keysAt_insert_same (h : keysOf f.content = keysAt dir f.name) (name : DelFileName) :
    keysAt (dir.insert f) name = keysAt dir name := by
  by_cases hname : name = f.name
  · rw [hname, keysAt_insert, h]
  · exact keysAt_insert_ne hname

theorem keysOf_writeAt (content : Bytes) (cursor : UInt64) :
    keysOf (writeAt content (putUInt64 cursor) 0) = keysOf content := by
  unfold keysOf writeAt
  rw [take_zero, Nat.zero_sub, length_putUInt64, Nat.zero_add]
  rfl

theorem keysAt_setCursor (x : DelReplica) (cursor : UInt64) (n : DelFileName) :
    keysAt (x.setExtentDeleteFileCursor name cursor).dir n = keysAt x.dir n :=
  keysAt_insert_same (f := ⟨name, writeAt (contentOf x.dir name) (putUInt64 cursor) 0⟩)
    (keysOf_writeAt _ _) n

theorem keysAt_removeUpTo_lt (h : name < n) : keysAt (removeUpTo dir name) n = keysAt dir n :=
  congrArg keysOf (contentOf_removeUpTo h)

theorem get?_removeUpTo_le (h : n ≤ name) : (removeUpTo dir name).get? n = none := by
  rw [get?_eq_none_iff]
  rintro f hf rfl
  exact absurd (mem_removeUpTo.mp hf).2 (not_lt.mpr h)

variable {snap : DelDir}

theorem keysAt_overwrite {g : DelFile} (hg : g ∈ snap.items) :
    keysAt (snap.items.foldl insert dir) g.name = keysOf g.content :=
  congrArg keysOf (contentOf_eq (mem_foldl_insert_self snap.sorted hg))

theorem keysAt_overwrite_of_not_mem (h : ∀ g ∈ snap.items, g.name ≠ name) :
    keysAt (snap.items.foldl insert dir) name = keysAt dir name := by
  cases hget : dir.get? name with
  | none =>
    rw [keysAt_eq_nil hget, keysAt_eq_nil]
    rw [get?_eq_none_iff] at hget ⊢
    exact fun f hf => (mem_foldl_insert hf).elim (h f) (hget f)
  | some f =>
    obtain ⟨hf, rfl⟩ := get?_eq_some_iff.mp hget
    exact congrArg keysOf
      ((contentOf_eq (mem_foldl_insert_of_mem hf h)).trans (contentOf_eq hf).symm)

end keys

/-- A replica has not lost a key that it wrote: `H` are the keys that were dealt with, `A` those
that some replica wrote and `R` those that were read. -/
structure DelReplica.Kept (H A R : ExtentKey → Prop) (x : DelReplica) : Prop where
  sorted : x.fileList.Pairwise (· < ·)
  last : x.fileList.getLast? = some x.fileName
  listed : ∀ name, keysAt x.dir name ≠ [] → name ∈ x.fileList
  found : ∀ name ∈ x.pass.found, name ≤ x.fileName ∧ ∀ n < name, keysAt x.dir n = []
  kept : ∀ p ∈ x.appended, H p.2 ∨ p.2 ∈ keysAt x.dir p.1
  known : ∀ name, ∀ k ∈ keysAt x.dir name, A k
  reading : ∀ name cursor before keys, x.pass = .deleting name cursor before keys → ∀ k ∈ keys, R k

section replica

variable {H H' A A' R R' : ExtentKey → Prop} {x : DelReplica} {name : DelFileName}

section

variable (h : x.Kept H A R)
include h

theorem DelReplica.Kept.mono (hH : ∀ k, H k → H' k) (hA : ∀ k, A k → A' k)
    (hR : ∀ k, R k → R' k) : x.Kept H' A' R' where
  __ := h
  kept := fun p hp => (h.kept p hp).imp_left (hH p.2)
  known := fun name k hk => hA k (h.known name k hk)
  reading := fun name cursor before keys hp k hk => hR k (h.reading name cursor before keys hp k hk)

theorem DelReplica.Kept.le_last (hname : name ∈ x.fileList) : name ≤ x.fileName := by
  obtain ⟨l, hl⟩ := getLast?_eq_some_iff.mp h.last
  have hs := h.sorted
  rw [hl] at hs hname
  obtain hname | hname := mem_append.mp hname
  · exact le_of_lt ((pairwise_append.mp hs).2.2 name hname _ (mem_singleton.mpr rfl))
  · exact le_of_eq (mem_singleton.mp hname)

theorem DelReplica.Kept.setDir {dir : DelDir} (linked : Bool)
    (hkeys : ∀ n, keysAt dir n = keysAt x.dir n) :
    DelReplica.Kept H A R { x with dir := dir, linked := linked } where
  __ := h
  listed := fun name hne => h.listed name (hkeys name ▸ hne)
  found := fun name hp =>
    ⟨(h.found name hp).1, fun n hn => (hkeys n).trans ((h.found name hp).2 n hn)⟩
  kept := fun p hp => (h.kept p hp).imp_right fun hk => (hkeys p.1).symm ▸ hk
  known := fun name k hk => h.known name k (hkeys name ▸ hk)

theorem DelReplica.Kept.setPass {pass : PassPhase} {extDelCh : List ExtentKey}
    (hfound : ∀ name ∈ pass.found, name ≤ x.fileName ∧ ∀ n < name, keysAt x.dir n = [])
    (hreading : ∀ name cursor before keys, pass = .deleting name cursor before keys →
      ∀ k ∈ keys, R k) : DelReplica.Kept H A R { x with pass := pass, extDelCh := extDelCh } where
  __ := h
  found := hfound
  reading := hreading

theorem DelReplica.Kept.rotate (hlinked : ∃ f ∈ x.dir.items, f.name = x.fileName)
    (hnew : ∀ f ∈ x.dir.items, f.name < delFileName (x.idx + 1)) : x.rotate.Kept H A R := by
  obtain ⟨f, hf, hname⟩ := hlinked
  have hlast : x.fileName < delFileName (x.idx + 1) := hname ▸ hnew f hf
  have hno : contentOf x.dir (delFileName (x.idx + 1)) = [] :=
    contentOf_eq_nil fun f hf => ne_of_lt (hnew f hf)
  have hkeys (n : DelFileName) : keysAt x.rotate.dir n = keysAt x.dir n := by
    refine keysAt_insert_same ?_ n
    unfold keysAt
    dsimp only
    rw [hno]
    rfl
  have hdir := h.setDir true hkeys
  refine ⟨?_, getLast?_concat .., fun n hn => ?_, fun n hn => ?_, hdir.kept, hdir.known, h.reading⟩
  · refine pairwise_append.mpr ⟨h.sorted, pairwise_singleton .., fun n hn m hm => ?_⟩
    rw [mem_singleton.mp hm]
    exact lt_of_le_of_lt (h.le_last hn) hlast
  · exact mem_append_left _ (hdir.listed n hn)
  · exact ⟨le_trans (hdir.found n hn).1 (le_of_lt hlast), (hdir.found n hn).2⟩

end

theorem keysAt_writeKey (h : x.Ok H) (ek : ExtentKey) :
    keysAt (x.writeKey ek).dir x.fileName = keysAt x.dir x.fileName ++ [ek] := by
  obtain ⟨f, hf, hname, j, keys, hlog, hj⟩ := h.dir.last
  have hcontent : contentOf x.dir x.fileName = logBytes j keys := by
    rw [← hname, contentOf_eq hf, hlog.content]
  unfold writeKey
  dsimp only
  rw [if_pos h.linked, keysAt_insert _ ⟨x.fileName, _⟩]
  unfold keysAt
  rw [hcontent, logBytes_append, keysOf_logBytes, keysOf_logBytes]

theorem keysAt_writeKey_ne (h : x.linked = true) (ek : ExtentKey) (hne : name ≠ x.fileName) :
    keysAt (x.writeKey ek).dir name = keysAt x.dir name := by
  unfold writeKey
  dsimp only
  rw [if_pos h]
  exact keysAt_insert_ne hne

variable {ek : ExtentKey}

theorem DelReplica.Kept.writeKey (h : x.Kept H A R) (hok : x.Ok H) (hek : A ek) :
    (x.writeKey ek).Kept H A R := by
  have hsub (n : DelFileName) : keysAt x.dir n ⊆ keysAt (x.writeKey ek).dir n := by
    by_cases hn : n = x.fileName
    · rw [hn, keysAt_writeKey hok]
      exact subset_append_left ..
    · rw [keysAt_writeKey_ne hok.linked ek hn]
      exact refl _
  refine ⟨h.sorted, h.last, fun n hn => ?_, fun n hn => ?_, fun p hp => ?_, fun n k hk => ?_,
    h.reading⟩
  · by_cases hname : n = x.fileName
    · exact hname ▸ mem_of_getLast? h.last
    · rw [keysAt_writeKey_ne hok.linked ek hname] at hn
      exact h.listed n hn
  · obtain ⟨hle, hbelow⟩ := h.found n hn
    refine ⟨hle, fun m hm => ?_⟩
    rw [keysAt_writeKey_ne hok.linked ek (ne_of_lt (lt_of_lt_of_le hm hle))]
    exact hbelow m hm
  · obtain rfl | hp := mem_cons.mp hp
    · right
      rw [keysAt_writeKey hok]
      exact mem_append_right _ (mem_singleton.mpr rfl)
    · exact (h.kept p hp).imp_right fun hk => hsub p.1 hk
  · by_cases hname : n = x.fileName
    · rw [hname, keysAt_writeKey hok] at hk
      obtain hk | hk := mem_append.mp hk
      · exact h.known _ k hk
      · exact mem_singleton.mp hk ▸ hek
    · rw [keysAt_writeKey_ne hok.linked ek hname] at hk
      exact h.known n k hk

theorem DelReplica.Kept.append (h : x.Kept H A R) (hok : x.Ok H) (hnew : x.RotatesOn) (hek : A ek) :
    (x.append ek).Kept H A R := by
  unfold DelReplica.append
  split
  next hfull =>
    obtain ⟨f, hf, hname, _⟩ := hok.dir.last
    exact (h.rotate ⟨f, hf, hname⟩ (hnew hfull)).writeKey (hok.rotate (hnew hfull)) hek
  · exact h.writeKey hok hek

theorem DelReplica.Kept.scan {last : DelFileName} (hdir : DirOk H x.dir last)
    (hpass : x.pass = .idle) (hkept : ∀ p ∈ x.appended, H p.2 ∨ p.2 ∈ keysAt x.dir p.1)
    (hknown : ∀ name, ∀ k ∈ keysAt x.dir name, A k) : x.scan.Kept H A R := by
  obtain ⟨f, hmax, rfl⟩ := hdir.max?
  unfold DelReplica.scan
  rw [hmax]
  refine ⟨List.pairwise_map.mpr x.dir.sorted, ?_, fun n hn => ?_, ?_, hkept, hknown, ?_⟩
  · dsimp only
    rw [List.getLast?_map]
    exact congrArg (Option.map DelFile.name) hmax
  · cases hget : x.dir.get? n with
    | none => exact absurd (keysAt_eq_nil hget) hn
    | some g =>
      obtain ⟨hg, rfl⟩ := OrdTree.get?_eq_some_iff.mp hget
      exact List.mem_map_of_mem hg
  all_goals
    dsimp only
    rw [hpass]
    nofun

theorem DelReplica.Kept.delOld (h : x.Kept H A R)
    (hseen : ∀ k ∈ DelCluster.keysUpTo x.dir name, H k) : (x.delOldExtentFile name).Kept H A R := by
  have hsub (n : DelFileName) : keysAt (removeUpTo x.dir name) n = [] ∨
      keysAt (removeUpTo x.dir name) n = keysAt x.dir n :=
    (le_or_gt n name).imp (fun h => keysAt_eq_nil (get?_removeUpTo_le h)) keysAt_removeUpTo_lt
  refine ⟨h.sorted, h.last, fun n hn => ?_, fun n hn => ⟨(h.found n hn).1, fun m hm => ?_⟩,
    fun p hp => ?_, fun n k hk => ?_, h.reading⟩
  · exact h.listed n ((hsub n).resolve_left hn ▸ hn)
  · exact (hsub m).elim id fun heq => heq.trans ((h.found n hn).2 m hm)
  · obtain hk | hk := h.kept p hp
    · exact .inl hk
    · obtain hle | hlt := le_or_gt p.1 name
      · exact .inl (hseen _ (mem_keysUpTo hle hk))
      · exact .inr ((keysAt_removeUpTo_lt hlt).symm ▸ hk)
  · obtain hnil | heq := hsub n
    · have hk' : k ∈ keysAt (removeUpTo x.dir name) n := hk
      rw [hnil] at hk'
      cases hk'
    · exact h.known n k (heq ▸ hk)

end replica

namespace DelCluster

def Appended (s : DelCluster) (k : ExtentKey) : Prop :=
  ∃ r name, (name, k) ∈ (s.replicas r).appended

structure Kept (s : DelCluster) : Prop where
  replicas : ∀ r, (s.replicas r).Kept s.Handled s.Appended (· ∈ s.read)
  log : ∀ c ∈ s.log, ∀ name, c.cmd = .delOld name → ∀ k ∈ c.seen, s.Handled k
  snaps : ∀ d ∈ s.snaps, ∀ f ∈ d.items, ∀ k ∈ keysOf f.content, s.Appended k
  read : ∀ k, s.Handled k → k ∈ s.read
  back : ∀ k ∈ s.read, s.Appended k

end DelCluster

def PassPhase.AtEnd (dir : DelDir) : PassPhase → Prop
  | .eof name => (contentOf dir name).length ≤ cursorOf (contentOf dir name)
  | _ => True

instance (dir : DelDir) (pass : PassPhase) : Decidable (pass.AtEnd dir) :=
  match pass with
  | .eof _ => inferInstanceAs (Decidable (_ ≤ _))
  | .idle => isTrue trivial
  | .stated _ _ => isTrue trivial
  | .deleting _ _ _ _ => isTrue trivial

def DelReplica.Spares (x : DelReplica) (c : LoggedCmd) : Prop :=
  match c.cmd with
  | .setCursor _ _ => True
  | .delOld name => ∀ k ∈ DelCluster.keysUpTo x.dir name, k ∈ c.seen

instance DelReplica.decidableSpares (x : DelReplica) (c : LoggedCmd) : Decidable (x.Spares c) :=
  match c with
  | ⟨.setCursor _ _, _⟩ => isTrue trivial
  | ⟨.delOld name, seen⟩ =>
    inferInstanceAs (Decidable (∀ k ∈ DelCluster.keysUpTo x.dir name, k ∈ seen))

namespace DelCluster

def Spares (s : DelCluster) : Event → Prop
  | .look r _ => (s.replicas r).pass.AtEnd (s.replicas r).dir
  | .apply r k => ∀ c ∈ s.log[k]?, (s.replicas r).Spares c
  | .applySnapshot r k => ∀ snap ∈ s.snaps[k]?, ∀ g ∈ snap.items,
      ∀ ek ∈ keysAt (s.replicas r).dir g.name, ek ∈ keysOf g.content
  | _ => True

instance (s : DelCluster) (e : Event) : Decidable (s.Spares e) :=
  match e with
  | .look r _ => inferInstanceAs (Decidable ((s.replicas r).pass.AtEnd (s.replicas r).dir))
  | .apply r k => inferInstanceAs (Decidable (∀ c ∈ s.log[k]?, (s.replicas r).Spares c))
  | .applySnapshot r k => inferInstanceAs (Decidable (∀ snap ∈ s.snaps[k]?, ∀ g ∈ snap.items,
      ∀ ek ∈ keysAt (s.replicas r).dir g.name, ek ∈ keysOf g.content))
  | .enqueue .. | .append _ | .restart _ | .takeSnapshot _ | .stat .. | .read _ | .delete ..
  | .put .. => isTrue trivial

def Careful (s : DelCluster) (e : Event) : Prop := s.Agreed e ∧ s.Spares e

instance (s : DelCluster) (e : Event) : Decidable (s.Careful e) :=
    inferInstanceAs (Decidable (_ ∧ _))

variable {s s' : DelCluster} {r : Nat} {x : DelReplica} {c : LoggedCmd}

theorem Appended.setReplica (h : s.Appended k) (happ : (s.replicas r).appended ⊆ x.appended) :
    (s.setReplica r x).Appended k := by
  obtain ⟨q, name, hk⟩ := h
  refine ⟨q, name, ?_⟩
  unfold DelCluster.setReplica
  dsimp only
  by_cases hq : q = r
  · subst hq
    rw [update_self]
    exact happ hk
  · rw [update_of_ne hq]
    exact hk

theorem appended_of_mem (name : DelFileName) (h : (name, k) ∈ x.appended) :
    (s.setReplica r x).Appended k := by
  refine ⟨r, name, ?_⟩
  unfold setReplica
  dsimp only
  rw [update_self]
  exact h

section

variable (h : s.Kept)
include h

section

variable (happ : (s.replicas r).appended ⊆ x.appended)
include happ

theorem Kept.setReplica (hx : x.Kept s.Handled (s.setReplica r x).Appended (· ∈ s.read)) :
    (s.setReplica r x).Kept where
  replicas := by
    intro q
    by_cases hq : q = r
    · subst hq
      unfold DelCluster.setReplica at hx ⊢
      dsimp only
      rw [update_self]
      exact hx
    have hother := (h.replicas q).mono (fun _ hk => hk) (fun _ hk => hk.setReplica happ)
      (fun _ hk => hk)
    unfold DelCluster.setReplica at hother ⊢
    dsimp only
    rw [update_of_ne hq]
    exact hother
  __ := h
  snaps := fun d hd f hf k hk => (h.snaps d hd f hf k hk).setReplica happ
  back := fun k hk => (h.back k hk).setReplica happ

theorem Kept.replica : (s.replicas r).Kept s.Handled (s.setReplica r x).Appended (· ∈ s.read) :=
  (h.replicas r).mono (fun _ hk => hk) (fun _ hk => hk.setReplica happ) (fun _ hk => hk)

end

theorem Kept.setPass (r : Nat) (pass : PassPhase) (extDelCh : List ExtentKey)
    (hfound : ∀ name ∈ pass.found, name ≤ (s.replicas r).fileName ∧
      ∀ n < name, keysAt (s.replicas r).dir n = [])
    (hreading : ∀ name cursor before keys, pass = .deleting name cursor before keys →
      ∀ k ∈ keys, k ∈ s.read) :
    (s.setReplica r { s.replicas r with pass := pass, extDelCh := extDelCh }).Kept := by
  have hx := h.replica (r := r) (x := { s.replicas r with pass := pass, extDelCh := extDelCh })
    (refl _)
  exact h.setReplica (refl _) (hx.setPass hfound hreading)

theorem Kept.setIdle (r : Nat) : (s.setReplica r { s.replicas r with pass := .idle }).Kept :=
  h.setPass r .idle _ nofun nofun

theorem Kept.logged (hc : ∀ name, c.cmd = .delOld name → ∀ k ∈ c.seen, s.Handled k) :
    { s with log := s.log ++ [c] }.Kept where
  __ := h
  log := by
    intro c' hc'
    obtain hc' | hc' := mem_append.mp hc'
    · exact h.log c' hc'
    · exact mem_singleton.mp hc' ▸ hc

theorem Kept.more {keys : List ExtentKey} (hkeys : ∀ k ∈ keys, s.Appended k) :
    { s with read := s.read ++ keys }.Kept where
  replicas := fun r => (h.replicas r).mono (fun _ hk => hk) (fun _ hk => hk)
    fun _ hk => mem_append_left _ hk
  __ := h
  read := fun k hk => mem_append_left _ (h.read k hk)
  back := fun k hk => (mem_append.mp hk).elim (h.back k) (hkeys k)

theorem Kept.handle {deleted requeued : List ExtentKey}
    (hmono : ∀ k, s.Handled k → k ∈ deleted ∨ k ∈ requeued)
    (hread : ∀ k, k ∈ deleted ∨ k ∈ requeued → k ∈ s.read) :
    { s with deleted := deleted, requeued := requeued }.Kept where
  replicas := fun r => (h.replicas r).mono hmono (fun _ hk => hk) (fun _ hk => hk)
  log := fun c hc name hcmd k hk => hmono k (h.log c hc name hcmd k hk)
  __ := h
  read := hread

theorem Kept.readFile (hok : s.Ok) (hs : s.readFile r = some s') : s'.Kept := by
  unfold DelCluster.readFile at hs
  dsimp only at hs
  split at hs
  next name size hpass =>
    split at hs
    · cases hs
    rename_i f hget
    obtain ⟨hf, rfl⟩ := get?_eq_some_iff.mp hget
    obtain ⟨j, keys, hlog⟩ := (hok.replicas r).dir.files f hf
    split at hs
    · cases hs
    · cases hs
      exact h.setIdle r
    · cases hs
      refine h.setPass r (.eof _) _ (fun name hname => (h.replicas r).found name ?_) nofun
      rw [hpass]
      exact hname
    next cursor buf hread =>
      cases hs
      rw [hlog.content] at hread
      obtain ⟨_, n, _, _, hkeys⟩ := passRead_logBytes hlog.cursor hread
      have happended (k : ExtentKey) (hk : k ∈ decodeKeys buf) : s.Appended k := by
        refine (h.replicas r).known f.name k ?_
        unfold keysAt
        rw [contentOf_eq hf, hlog.content, keysOf_logBytes]
        rw [hkeys] at hk
        exact mem_of_mem_drop (mem_of_mem_take hk)
      refine (h.more happended).setPass r (.deleting _ _ _ _) _ nofun ?_
      rintro _ _ _ _ ⟨rfl, rfl, rfl, rfl⟩
      exact fun k hk => mem_append_right _ hk
  · cases hs

theorem Kept.stat (hok : s.Ok) {isLeader : Bool} (hs : s.stat r isLeader = some s') : s'.Kept := by
  unfold DelCluster.stat at hs
  dsimp only at hs
  split at hs
  next name rest hpass hlist =>
    have hx := h.replicas r
    have hsorted := hx.sorted
    rw [hlist] at hsorted
    split at hs
    next hget =>
      cases hs
      refine h.setReplica (refl _) ?_
      have hx' := h.replica (r := r) (x := { s.replicas r with fileList := rest })
        (refl _)
      refine { hx' with sorted := hsorted.of_cons, last := ?_, listed := fun n hn => ?_ }
      · -- the last file is in the directory, so it is not the one that is dropped
        obtain ⟨f, hf, hname, _⟩ := (hok.replicas r).dir.last
        have hlast := hx.last
        rw [hlist, getLast?_cons] at hlast
        cases hrest : rest.getLast? with
        | none =>
          rw [hrest] at hlast
          have : f.name = name := hname.trans (Option.some.inj hlast).symm
          exact absurd this (get?_eq_none_iff.mp hget f hf)
        | some last =>
          rw [hrest] at hlast
          exact hlast
      · have hmem := hx.listed n hn
        rw [hlist] at hmem
        obtain rfl | hmem := mem_cons.mp hmem
        · exact absurd (keysAt_eq_nil hget) hn
        · exact hmem
    rename_i f hget
    split at hs
    · cases hs
      refine h.setPass r (.stated _ _) _ ?_ nofun
      rintro _ ⟨⟩
      refine ⟨hx.le_last (hlist ▸ mem_cons_self ..), fun n hn => ?_⟩
      by_contra hne
      have hmem := hx.listed n hne
      rw [hlist] at hmem
      obtain rfl | hmem := mem_cons.mp hmem
      · exact absurd hn (lt_irrefl _)
      · exact absurd hn (lt_asymm ((pairwise_cons.mp hsorted).1 n hmem))
    · exact Option.some.inj hs ▸ h
  · cases hs

end

variable {name : DelFileName} {n : Nat}

theorem Kept.upTo (h : s.Kept) (hok : s.Ok) (hpass : (s.replicas r).pass = .eof name)
    (hend : (contentOf (s.replicas r).dir name).length ≤
    cursorOf (contentOf (s.replicas r).dir name)) :
    ∀ k ∈ keysUpTo (s.replicas r).dir name, s.Handled k := by
  intro k hmem
  obtain ⟨n, hle, hk⟩ := exists_of_mem_keysUpTo hmem
  obtain hlt | rfl := lt_or_eq_of_le hle
  · have hfound : name ∈ (s.replicas r).pass.found := by
      rw [hpass]
      rfl
    rw [((h.replicas r).found name hfound).2 n hlt] at hk
    cases hk
  · cases hget : (s.replicas r).dir.get? n with
    | none =>
      rw [keysAt_eq_nil hget] at hk
      cases hk
    | some f =>
      obtain ⟨hf, rfl⟩ := get?_eq_some_iff.mp hget
      obtain ⟨j, keys, hlog⟩ := (hok.replicas r).dir.files f hf
      unfold keysAt at hk
      rw [contentOf_eq hf, hlog.content] at hk hend
      rw [length_logBytes, cursorOf_logBytes hlog.cursor] at hend
      rw [keysOf_logBytes] at hk
      refine hlog.before k ?_
      rwa [take_of_length_le (by omega)]

theorem Kept.delete (h : s.Kept) {cursor : UInt64} {before rest : List ExtentKey}
    (hpass : (s.replicas r).pass = .deleting name cursor before (ek :: rest)) :
    ek ∈ s.read ∧ ∀ k ∈ rest, k ∈ s.read := by
  have hreading := (h.replicas r).reading _ _ _ _ hpass
  exact ⟨hreading ek (mem_cons_self ..), fun k hk => hreading k (mem_cons_of_mem _ hk)⟩

theorem Kept.applySnapshot (h : s.Kept) (hok : s.Ok) (hsnap : snap ∈ s.snaps)
    (hidle : (s.replicas r).pass.isIdle = true)
    (hspares : ∀ g ∈ snap.items, ∀ ek ∈ keysAt (s.replicas r).dir g.name, ek ∈ keysOf g.content) :
    (s.setReplica r ((s.replicas r).applySnapshot snap)).Kept := by
  have hx := h.replicas r
  obtain ⟨top, hsnapOk⟩ := hok.snaps snap hsnap
  have happ : ((s.replicas r).applySnapshot snap).appended = (s.replicas r).appended := by
    unfold DelReplica.applySnapshot DelReplica.scan
    split
    all_goals rfl
  have hdir := (hok.replicas r).dir.overwrite hsnapOk
  have hold (n : DelFileName) : (∃ g ∈ snap.items, g.name = n) ∨ ∀ g ∈ snap.items, g.name ≠ n := by
    by_cases hn : ∃ g ∈ snap.items, g.name = n
    · exact .inl hn
    · exact .inr fun g hg hgn => hn ⟨g, hg, hgn⟩
  refine h.setReplica (happ ▸ refl _) (DelReplica.Kept.scan hdir ?_ ?_ ?_)
  · dsimp only
    cases hpass : (s.replicas r).pass with
    | idle => rfl
    | _ =>
      rw [hpass] at hidle
      cases hidle
  · intro p hp
    refine (hx.kept p hp).imp_right fun hk => ?_
    dsimp only
    obtain ⟨g, hg, hname⟩ | hno := hold p.1
    · rw [← hname] at hk ⊢
      rw [keysAt_overwrite hg]
      exact hspares g hg p.2 hk
    · rw [keysAt_overwrite_of_not_mem hno]
      exact hk
  · intro n k hk
    refine Appended.setReplica ?_ (happ ▸ refl _)
    dsimp only at hk
    obtain ⟨g, hg, rfl⟩ | hno := hold n
    · rw [keysAt_overwrite hg] at hk
      exact h.snaps snap hsnap g hg k hk
    · rw [keysAt_overwrite_of_not_mem hno] at hk
      exact hx.known n k hk

theorem append_appended (x : DelReplica) (ek : ExtentKey) :
    ∃ name, (x.append ek).appended = (name, ek) :: x.appended := by
  unfold append
  split
  all_goals exact ⟨_, rfl⟩

theorem Kept.restart (h : s.Kept) (hok : s.Ok) (r : Nat) :
    (s.setReplica r (s.replicas r).start).Kept := by
  have happ : (s.replicas r).start.appended = (s.replicas r).appended := by
    unfold start scan
    split
    all_goals rfl
  refine h.setReplica (happ ▸ refl _)
    (DelReplica.Kept.scan (hok.replicas r).dir rfl (h.replicas r).kept fun n k hk => ?_)
  exact ((h.replicas r).known n k hk).setReplica (happ ▸ refl _)

theorem Kept.apply (h : s.Kept) (hc : c ∈ s.log) (hspares : (s.replicas r).Spares c) :
    (s.setReplica r (applyCmd (s.replicas r) c.cmd)).Kept := by
  unfold DelReplica.Spares at hspares
  unfold applyCmd
  split
  next name cursor hcmd =>
    have hx := h.replica (r := r) (x := (s.replicas r).setExtentDeleteFileCursor name cursor)
      (refl _)
    exact h.setReplica (refl _) (hx.setDir _ (keysAt_setCursor (s.replicas r) cursor))
  rename_i name hcmd
  rw [hcmd] at hspares
  have hx := h.replica (r := r) (x := (s.replicas r).delOldExtentFile name) (refl _)
  refine h.setReplica (refl _) (hx.delOld fun k hk => ?_)
  exact h.log c hc name hcmd k (hspares k hk)

theorem kept_step (h : s.Kept) (hok : s.Ok) {e : Event} (ha : s.Agreed e) (hspares : s.Spares e)
    (hs : s.step e = some s') : s'.Kept := by
  cases e with
  | enqueue r ek =>
    cases hs
    exact h.setPass r _ _ (h.replicas r).found (h.replicas r).reading
  | append r =>
    dsimp only [step] at hs
    split at hs
    · cases hs
    rename_i ek rest _
    cases hs
    have hx := hok.replicas r
    have hxok : DelReplica.Ok s.Handled { s.replicas r with extDelCh := rest } := { hx with }
    obtain ⟨name, happ⟩ := append_appended { s.replicas r with extDelCh := rest } ek
    have hsub : (s.replicas r).appended ⊆
        (append { s.replicas r with extDelCh := rest } ek).appended := by
      rw [happ]
      exact subset_cons_self ..
    refine h.setReplica hsub (DelReplica.Kept.append ?_ hxok ha ?_)
    · exact DelReplica.Kept.setPass (h.replica hsub) (h.replicas r).found (h.replicas r).reading
    · exact appended_of_mem name (happ ▸ mem_cons_self ..)
  | restart r =>
    cases hs
    exact h.restart hok r
  | takeSnapshot r =>
    cases hs
    refine { h with snaps := fun d hd f hf k hk => ?_ }
    obtain hd | hd := mem_append.mp hd
    · exact h.snaps d hd f hf k hk
    · obtain rfl := mem_singleton.mp hd
      refine (h.replicas r).known f.name k ?_
      unfold keysAt
      rwa [contentOf_eq hf]
  | applySnapshot r k =>
    obtain ⟨snap, hsnap, rfl⟩ := Option.map_eq_some_iff.mp hs
    exact h.applySnapshot hok (mem_of_getElem? hsnap) ha (hspares snap hsnap)
  | stat r isLeader => exact h.stat hok hs
  | read r => exact h.readFile hok hs
  | look r logged =>
    dsimp only [step] at hs
    split at hs
    next name hpass =>
      have hend : (s.replicas r).pass.AtEnd (s.replicas r).dir := hspares
      rw [hpass] at hend
      split at hs
      · cases hs
        refine (h.setIdle r).logged ?_
        rintro _ ⟨rfl⟩
        exact h.upTo hok hpass hend
      · cases hs
        exact h.setIdle r
    · cases hs
  | delete r ok =>
    dsimp only [step] at hs
    split at hs
    next name cursor before ek rest hpass =>
      obtain ⟨hek, hrest⟩ := h.delete hpass
      have hreading (extDelCh : List ExtentKey) := by
        refine h.setPass r (.deleting name cursor before rest) extDelCh nofun ?_
        rintro _ _ _ _ ⟨rfl, rfl, rfl, rfl⟩
        exact hrest
      split at hs
      · cases hs
        refine (hreading _).handle (fun k hk => hk.imp_left (mem_cons_of_mem _)) ?_
        rintro k (hk | hk)
        · obtain rfl | hk := mem_cons.mp hk
          · exact hek
          · exact h.read k (.inl hk)
        · exact h.read k (.inr hk)
      cases hs
      refine (hreading _).handle (fun k hk => hk.imp_right (mem_cons_of_mem _)) ?_
      rintro k (hk | hk)
      · exact h.read k (.inl hk)
      · obtain rfl | hk := mem_cons.mp hk
        · exact hek
        · exact h.read k (.inr hk)
    · cases hs
  | put r logged =>
    dsimp only [step] at hs
    split at hs
    next name cursor before hpass =>
      split at hs
      · cases hs
        exact (h.setIdle r).logged nofun
      · cases hs
        exact h.setIdle r
    · cases hs
  | apply r k =>
    obtain ⟨c, hc, rfl⟩ := Option.map_eq_some_iff.mp hs
    exact h.apply (mem_of_getElem? hc) (hspares c hc)

theorem kept_new : new.Kept where
  replicas := by
    intro r
    have hkeys (name : DelFileName) : keysAt DelReplica.new.dir name = [] := by
      have hempty (n : DelFileName) : keysAt .empty n = [] := keysAt_eq_nil (OrdTree.get?_empty n)
      have hheader : keysOf extentsFileHeader = keysAt .empty (delFileName 0) := (hempty _).symm
      exact (keysAt_insert_same hheader name).trans
        (hempty name)
    refine ⟨List.pairwise_singleton .., rfl, fun name hne => absurd (hkeys name) hne, nofun, nofun,
      fun name k hk => ?_, nofun⟩
    have hk' : k ∈ keysAt DelReplica.new.dir name := hk
    rw [hkeys] at hk'
    cases hk'
  log := nofun
  snaps := nofun
  read := nofun
  back := nofun

/-- In every run in which, moreover, a pass takes a file for finished only while its cursor is at
its end, and neither the removal of files nor a snapshot takes away a key that the replica that
issued or took it did not have, the keys that were ever written to a file that is no longer in the
directory were read; and what was read was written. -/
theorem removed_keys_read {s : DelCluster} (hr : Reach step Careful new s) :
    (∀ r name k, (name, k) ∈ (s.replicas r).appended → (s.replicas r).dir.get? name = none →
      k ∈ s.read) ∧
    ∀ k ∈ s.read, ∃ r name, (name, k) ∈ (s.replicas r).appended := by
  obtain ⟨_, hkept⟩ : s.Ok ∧ s.Kept := hr.invariant (P := fun s => s.Ok ∧ s.Kept) ⟨ok_new, kept_new⟩
    fun _ _ _ h ha hs => ⟨ok_step h.1 ha.1 hs, kept_step h.2 h.1 ha.1 ha.2 hs⟩
  refine ⟨fun r name k hk hgone => ?_, hkept.back⟩
  obtain hH | hin := (hkept.replicas r).kept _ hk
  · exact hkept.read k hH
  · rw [keysAt_eq_nil hgone] at hin
    cases hin

theorem removed_keys_read_two : ∃ s, Reach step Careful new s ∧ keyOf 1 ∈ s.read ∧
    (∀ r name k, (name, k) ∈ (s.replicas r).appended → (s.replicas r).dir.get? name = none →
      k ∈ s.read) ∧
    ∀ k ∈ s.read, ∃ r name, (name, k) ∈ (s.replicas r).appended := by
  have hr : Reach step Careful new _ := .of_checked deletedBoth rfl .start
  exact ⟨_, hr, by decide +kernel, removed_keys_read hr⟩

/-- A pass has met the end of the empty file, and before it looks at the list `n` keys are
written. -/
structure Filling (n : Nat) (x : DelReplica) : Prop where
  pass : x.pass = .eof (delFileName 0)
  fileList : x.fileList = [delFileName 0]
  fileName : x.fileName = delFileName 0
  fileSize : x.fileSize = 40 * n
  extDelCh : x.extDelCh = []
  appended : 0 < n → (delFileName 0, keyOf 1) ∈ x.appended

theorem setReplica_self (s : DelCluster) (r : Nat) (x : DelReplica) :
    (s.setReplica r x).replicas r = x := update_self ..

theorem reach_append (h : (s.replicas r).extDelCh = []) (ek : ExtentKey) :
    Reach step (fun _ _ => True) s (s.setReplica r ((s.replicas r).append ek)) := by
  refine .of_foldlM [.enqueue r ek, .append r] ?_ (fun _ _ _ => trivial) .start
  have hx : { s.replicas r with extDelCh := [] } = s.replicas r := h ▸ rfl
  change step (s.setReplica r { s.replicas r with extDelCh := (s.replicas r).extDelCh ++ [ek] })
    (.append r) >>= _ = _
  rw [h]
  dsimp only [step]
  rw [setReplica_self]
  dsimp only [nil_append, setReplica]
  rw [update_idem, hx]
  rfl

theorem Filling.writeKey (h : Filling n x) : Filling (n + 1) (x.writeKey (keyOf 1)) where
  __ := h
  fileSize := congrArg (· + 40) h.fileSize
  appended := fun _ => h.fileName ▸ mem_cons_self ..

theorem exists_filling (hn : n ≤ 262144) :
    ∃ s, Reach step (fun _ _ => True) new s ∧ Filling n (s.replicas 0) ∧ s.read = [] := by
  induction n with
  | zero =>
    refine ⟨_, .of_foldlM [.stat 0 true, .read 0] rfl (fun _ _ _ => trivial) .start, ?_, rfl⟩
    exact ⟨rfl, rfl, rfl, rfl, rfl, nofun⟩
  | succ n ih =>
    obtain ⟨s, hs, h, hread⟩ := ih (by omega)
    have hroom : ¬maxDeleteExtentSize ≤ (s.replicas 0).fileSize := by
      rw [h.fileSize]
      unfold maxDeleteExtentSize mb
      omega
    refine ⟨_, hs.trans (reach_append h.extDelCh (keyOf 1)), ?_, hread⟩
    rw [setReplica_self]
    unfold append
    rw [if_neg hroom]
    exact h.writeKey

theorem reach_delOld (hpass : (s.replicas r).pass = .eof name)
    (hlist : 1 < (s.replicas r).fileList.length) :
    ∃ s', Reach step (fun _ _ => True) s s' ∧ s'.read = s.read ∧
      s'.replicas r = { s.replicas r with pass := .idle }.delOldExtentFile name := by
  let idle := s.setReplica r { s.replicas r with pass := .idle }
  let issued : DelCluster :=
    { idle with log := s.log ++ [⟨.delOld name, keysUpTo (s.replicas r).dir name⟩] }
  have hlook : step s (.look r true) = some issued := by
    dsimp only [step]
    rw [hpass]
    exact if_pos ⟨hlist, rfl⟩
  have happly : step issued (.apply r s.log.length) =
      some (issued.setReplica r ((issued.replicas r).delOldExtentFile name)) := by
    dsimp only [step, issued]
    rw [getElem?_concat_length]
    rfl
  refine ⟨_, .next (.next .start trivial hlook) trivial happly, rfl, ?_⟩
  rw [setReplica_self]
  exact congrArg (·.delOldExtentFile name) (setReplica_self s r _)

/-- The file is full and the next one is opened; only then the pass looks at the list and has the
file removed of which it has read nothing. -/
theorem unread_keys_removed : ∃ s, Reach step (fun _ _ => True) new s ∧
    (delFileName 0, keyOf 1) ∈ (s.replicas 0).appended ∧
      (s.replicas 0).dir.get? (delFileName 0) = none ∧ keyOf 1 ∉ s.read := by
  obtain ⟨s, hs, h, hread⟩ := exists_filling (Nat.le_refl 262144)
  have hfull : maxDeleteExtentSize ≤ (s.replicas 0).fileSize := by
    rw [h.fileSize]
    decide
  have hrotate := reach_append h.extDelCh (keyOf 1)
  unfold DelReplica.append at hrotate
  rw [if_pos hfull] at hrotate
  generalize ht : s.setReplica 0 ((s.replicas 0).rotate.writeKey (keyOf 1)) = t at hrotate
  have hself : t.replicas 0 = (s.replicas 0).rotate.writeKey (keyOf 1) :=
    ht ▸ setReplica_self s 0 _
  have hpass : (t.replicas 0).pass = .eof (delFileName 0) := by
    rw [hself]
    exact h.pass
  have hlist : 1 < (t.replicas 0).fileList.length := by
    rw [hself]
    unfold DelReplica.writeKey DelReplica.rotate
    rw [h.fileList]
    exact Nat.lt_add_one 1
  obtain ⟨s', hs', hread', hx⟩ := reach_delOld hpass hlist
  refine ⟨s', (hs.trans hrotate).trans hs', ?_, ?_, ?_⟩
  · rw [hx, hself]
    exact List.mem_cons_of_mem _ (h.appended (by decide))
  · rw [hx]
    exact get?_removeUpTo_le (le_refl _)
  · have hnil : t.read = [] := ht ▸ hread
    rw [hread', hnil]
    nofun

end DelCluster
end ChubaoFS
