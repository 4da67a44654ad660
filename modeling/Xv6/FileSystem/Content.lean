import Xv6.FileSystem.Bmap

/-!
# What `readi` and `writei` do

`Changes sb i lo up d d'` is the frame of a write: inode `i` has taken blocks
and can have another size, and of all the bytes in all the files only the
bytes of `i` from `lo` to `up` can be different.

`Wrote` is the specification of the loop of `writei`.  It writes `w` bytes.
If a copy from user memory fails, the bytes of that chunk that arrived are
changed without being counted, so the loop touches `e ≥ w` bytes.  With a
readable source the loop stops early only if the disk is full.

On a file system that is intact `readi` finds every block it asks for.  So it
changes nothing, and it needs no transaction.
-/

namespace Xv6.FileSystem

open Xv6.Lib Xv6.FileSystem.Disk

/-- Inode `i` has taken blocks, and only its size and its bytes from `lo` to
`up` can be other ones. -/
structure Changes (sb : Superblock) (i lo up : Nat) (d d' : Disk) : Prop where
  other : ∀ j, j ≠ i → d'.dinode j = d.dinode j
  node : ∃ a z, d'.dinode i = { d.dinode i with addrs := a, size := z }
  kept : ∀ j k, j < sb.ninodes → k < NPLACE → d.addr j k ≠ 0 → d'.addr j k = d.addr j k
  same : ∀ j k, j < sb.ninodes → j ≠ i → d'.addr j k = d.addr j k
  byte : ∀ j p, j < sb.ninodes → p / BSIZE < MAXFILE → d.fileAddr j (p / BSIZE) ≠ 0 →
    j ≠ i ∨ p < lo ∨ up ≤ p → d'.byte j p = d.byte j p

variable {sb : Superblock} {d d' : Disk} {i j lo up p off tot len bn n : Nat}

theorem Extends.changes (h : Extends sb i d d') : Changes sb i lo up d d' := by
  obtain ⟨a, ha⟩ := h.node
  exact ⟨h.other, ⟨a, (d.dinode i).size, ha⟩, h.kept, h.same,
    fun _ _ hj hp hne _ => h.byte hj hp hne⟩

theorem Changes.fileAddr (h : Changes sb i lo up d d') (hj : j < sb.ninodes) (hbn : bn < MAXFILE)
    (hne : d.fileAddr j bn ≠ 0) : d'.fileAddr j bn = d.fileAddr j bn :=
  h.kept j _ hj (place_lt hbn) hne

theorem Changes.mono {lo' up' : Nat} (h : Changes sb i lo up d d') (hlo : lo' ≤ lo)
    (hup : up ≤ up') : Changes sb i lo' up' d d' := by
  refine ⟨h.other, h.node, h.kept, h.same, fun j p hj hp hne hout => ?_⟩
  exact h.byte j p hj hp hne (by omega)

theorem Changes.trans {d'' : Disk} (h : Changes sb i lo up d d') (h' : Changes sb i lo up d' d'') :
    Changes sb i lo up d d'' where
  other j hj := (h'.other j hj).trans (h.other j hj)
  node := by
    obtain ⟨a, z, ha⟩ := h.node
    obtain ⟨a', z', ha'⟩ := h'.node
    exact ⟨a', z', by rw [ha', ha]⟩
  kept j k hj hk hne := by
    have hkept := h.kept j k hj hk hne
    rw [h'.kept j k hj hk (by rwa [hkept]), hkept]
  same j k hj hji := (h'.same j k hj hji).trans (h.same j k hj hji)
  byte j p hj hp hne hout := by
    have hkept := h.fileAddr hj hp hne
    rw [h'.byte j p hj hp (by rwa [hkept]) hout, h.byte j p hj hp hne hout]

/-! ## One chunk -/

/-- The disk after `len` bytes of `src` are copied into the block at `off`. -/
def Disk.patchBlock (d : Disk) (i off : Nat) (src : List UInt8) : Disk :=
  d.setBlock (d.fileAddr i (off / BSIZE))
    ((d.block (d.fileAddr i (off / BSIZE))).patch (off % BSIZE) src)

section Chunk

variable (h : Owned sb d) (hi : i < sb.ninodes) (hoff : off / BSIZE < MAXFILE)
  (hne : d.fileAddr i (off / BSIZE) ≠ 0)
include h hi hoff hne

theorem Owned.byte_patchBlock {src : Buffer} (hfit : off % BSIZE + len ≤ BSIZE)
    (hj : j < sb.ninodes) (hp : p / BSIZE < MAXFILE) :
    (d.patchBlock i off (src.slice tot len)).byte j p =
      if j = i ∧ off ≤ p ∧ p < off + len then src (tot + (p - off)) else d.byte j p := by
  rw [patchBlock, h.byte_store hi hoff hne hj hp]
  by_cases hblock : j = i ∧ p / BSIZE = off / BSIZE
  · -- the byte is in that block
    obtain ⟨hji, hdiv⟩ := hblock
    have hbyte : d.byte j p = d.block (d.fileAddr i (off / BSIZE)) (p % BSIZE) := by
      rw [Disk.byte, hji, hdiv]
    have hmod : p % BSIZE + off = off % BSIZE + p := by
      have hp := Nat.div_add_mod p BSIZE
      have ho := Nat.div_add_mod off BSIZE
      rw [hdiv] at hp
      omega
    rw [if_pos ⟨hji, hdiv⟩]
    by_cases hin : off ≤ p ∧ p < off + len
    · have hplace : p % BSIZE = off % BSIZE + (p - off) := by omega
      have hlen : p - off < (src.slice tot len).length := by rw [Buffer.length_slice]; omega
      rw [if_pos ⟨hji, hin⟩, hplace, Buffer.patch_inside hlen, Buffer.getElem_slice]
    · rw [if_neg (fun hc => hin hc.2), hbyte, Buffer.patch_outside]
      rw [Buffer.length_slice]
      omega
  · rw [if_neg hblock, if_neg]
    rintro ⟨hji, hle, hlt⟩
    refine hblock ⟨hji, ?_⟩
    have ho := Nat.div_add_mod off BSIZE
    simp only [BSIZE] at hfit ho ⊢
    omega

theorem Owned.changes_patchBlock (src : Buffer) (tot : Nat) (hfit : off % BSIZE + len ≤ BSIZE) :
    Changes sb i off (off + len) d (d.patchBlock i off (src.slice tot len)) where
  other _ _ := rfl
  node := ⟨_, _, rfl⟩
  kept j k hj _ _ := h.addr_store hi hoff hne hj
  same j k hj _ := h.addr_store hi hoff hne hj
  byte j p hj hp _ hout := by
    rw [h.byte_patchBlock hi hoff hne hfit hj hp, if_neg]
    omega

end Chunk

/-! ## The loop of `writei` -/

/-- The bytes of the next chunk, with `left` bytes to go. -/
def chunkSize (off left : Nat) : Nat := min left (BSIZE - off % BSIZE)

/-- The loop of `writei` has written `w` bytes from the offset `off` on, and
has touched `e`.  What holds of all bytes that can arrive holds of these. -/
structure Wrote (sb : Superblock) (src : Source) (s : File) (tot off n w e : Nat) (s' : File) :
    Prop where
  owned : Owned sb s'.view
  inum : s'.inum = s.inum
  trans : s'.trans = s.trans
  size : s'.ip.size = s.ip.size
  le : w ≤ e ∧ e ≤ n - tot
  changes : Changes sb s.inum off (off + e) s.view s'.view
  mapped : ∀ k, k < e → s'.view.fileAddr s.inum ((off + k) / BSIZE) ≠ 0
  data : ∀ k, k < e → s'.view.byte s.inum (off + k) = src.byte (tot + k)
  arrived : ∀ R : Nat → Prop, (∀ x m k, k < src.arrives x m → R (x + k)) →
    ∀ k, k < e → R (tot + k)
  boundary : w = 0 ∨ w = n - tot ∨ (off + w) % BSIZE = 0
  stop : (e = w ∧ (w < n - tot →
      Full sb s'.view ∧ s'.view.fileAddr s.inum ((off + w) / BSIZE) = 0)) ∨
    (src.arrives (tot + w) (chunkSize (off + w) (n - tot - w)) = e - w ∧
      e - w < chunkSize (off + w) (n - tot - w))
  count : ∀ P : Finset Nat, (∀ k, k < n - tot → place ((off + k) / BSIZE) ∈ P ∧
      (NDIRECT ≤ (off + k) / BSIZE → NDIRECT ∈ P)) →
    free sb s'.view + missing s.view s.inum P = free sb s.view + missing s'.view s.inum P

variable {s s' t : File} {src : Source}

theorem free_patchBlock {src : List UInt8} : free sb (d.patchBlock i off src) = free sb d := rfl

theorem Owned.missing_patchBlock {x : List UInt8} (h : Owned sb d) (hi : i < sb.ninodes)
    (hoff : off / BSIZE < MAXFILE) (hne : d.fileAddr i (off / BSIZE) ≠ 0) (P : Finset Nat) :
    missing (d.patchBlock i off x) i P = missing d i P := by
  unfold missing
  congr 2
  funext k
  rw [patchBlock, h.addr_store hi hoff hne hi]

theorem Bmapped.size {r : Nat} (h : Bmapped sb s bn r t) : t.ip.size = s.ip.size := by
  have := h.extends'.size s.inum
  rwa [dinode_view, ← h.inum, dinode_view] at this

theorem Bmapped.type {r : Nat} (h : Bmapped sb s bn r t) : t.ip.type = s.ip.type := by
  have := h.extends'.type
  rwa [dinode_view, ← h.inum, dinode_view] at this

/-- The loop is done. -/
theorem Wrote.nothing (hown : Owned sb s.view) (hdone : n - tot = 0) :
    Wrote sb src s tot off n 0 0 s := by
  refine ⟨hown, rfl, rfl, rfl, by omega, (Extends.refl _ _ _).changes, ?_, ?_, ?_, Or.inl rfl, ?_,
    fun _ _ => rfl⟩
  · omega
  · omega
  · intro R _ k hk
    omega
  · exact Or.inl ⟨rfl, by omega⟩

/-- A chunk, then the rest of the loop. -/
theorem Wrote.chunk {m w e : Nat} {u : File} (h : Bmapped sb s (off / BSIZE) bn t)
    (hi : s.inum < sb.ninodes) (hmax : off + (n - tot) ≤ MAXFILE * BSIZE) (hne : bn ≠ 0)
    (hm : m = min (n - tot) (BSIZE - off % BSIZE)) (hlt : tot < n)
    (hall : src.arrives tot m = m)
    (hu : u.view = t.view.patchBlock s.inum off (src.byte.slice tot m))
    (huinum : u.inum = t.inum) (hutrans : u.trans = t.trans) (huip : u.ip = t.ip)
    (hrest : Wrote sb src u (tot + m) (off + m) n w e s') :
    Wrote sb src s tot off n (m + w) (m + e) s' := by
  have hmod : off % BSIZE < BSIZE := Nat.mod_lt _ (by decide)
  have hfit : off % BSIZE + m ≤ BSIZE := by omega
  have hbound : ∀ q, q < off + (n - tot) → q / BSIZE < MAXFILE := by
    intro q hq
    exact Nat.div_lt_of_lt_mul (by rw [Nat.mul_comm]; omega)
  have hoff := hbound off (by omega)
  have hmapped : t.view.fileAddr s.inum (off / BSIZE) ≠ 0 := by rwa [← h.addr]
  have huw : u.inum = s.inum := huinum.trans h.inum
  have hchunk := h.owned.changes_patchBlock hi hoff hmapped src.byte tot hfit
  rw [← hu] at hchunk
  have hle := hrest.le
  have hrest' : Changes sb s.inum (off + m) (off + m + e) u.view s'.view := huw ▸ hrest.changes
  have hkeep : ∀ k, k < m → (off + k) / BSIZE = off / BSIZE := by
    intro k hk
    have ho := Nat.div_add_mod off BSIZE
    simp only [BSIZE] at hfit ho ⊢
    omega
  have hukept : u.view.fileAddr s.inum (off / BSIZE) ≠ 0 := by
    rw [hchunk.fileAddr hi hoff hmapped]
    exact hmapped
  refine ⟨hrest.owned, hrest.inum.trans huw, ?_, ?_, by omega, ?_, ?_, ?_, ?_, ?_, ?_, ?_⟩
  · exact hrest.trans.trans (hutrans.trans h.trans)
  · rw [hrest.size, huip]
    exact h.size
  · exact (h.extends'.changes.trans (hchunk.mono le_rfl (by omega))).trans
      (hrest'.mono (by omega) (by omega))
  · intro k hk
    by_cases hkm : k < m
    · rw [hkeep k hkm, hrest'.fileAddr hi hoff hukept]
      exact hukept
    · have := hrest.mapped (k - m) (by omega)
      rw [huw] at this
      rwa [show off + m + (k - m) = off + k by omega] at this
  · intro k hk
    by_cases hkm : k < m
    · have hq : (off + k) / BSIZE < MAXFILE := hbound _ (by omega)
      rw [hrest'.byte s.inum (off + k) hi hq (by rwa [hkeep k hkm]) (by omega), hu,
        h.owned.byte_patchBlock hi hoff hmapped hfit hi hq, if_pos ⟨rfl, by omega, by omega⟩]
      congr 1
      omega
    · have := hrest.data (k - m) (by omega)
      rw [huw] at this
      rwa [show off + m + (k - m) = off + k by omega,
        show tot + m + (k - m) = tot + k by omega] at this
  · intro R hR k hk
    by_cases hkm : k < m
    · exact hR tot m k (by omega)
    · have := hrest.arrived R hR (k - m) (by omega)
      rwa [show tot + m + (k - m) = tot + k by omega] at this
  · rcases hrest.boundary with rfl | hend | haligned
    · by_cases hlast : m = n - tot
      · exact Or.inr (Or.inl hlast)
      · refine Or.inr (Or.inr ?_)
        have hfull : off % BSIZE + m = BSIZE := by omega
        rw [Nat.add_zero]
        simp only [BSIZE] at hfull ⊢
        omega
    · exact Or.inr (Or.inl (by omega))
    · exact Or.inr (Or.inr (by rwa [← Nat.add_assoc]))
  · have hleft : n - (tot + m) - w = n - tot - (m + w) := by omega
    have hstop := hrest.stop
    rw [huw, Nat.add_assoc off m w, Nat.add_assoc tot m w, hleft] at hstop
    refine hstop.imp ?_ ?_
    · rintro ⟨heq, hfull⟩
      exact ⟨by omega, fun hw => hfull (by omega)⟩
    · rintro ⟨harr, hlt⟩
      have he : m + e - (m + w) = e - w := by omega
      rw [he]
      exact ⟨harr, hlt⟩
  · intro P hP
    have hfirst := hP 0 (by omega)
    have hbmap := h.count P hfirst.1 hfirst.2
    have htail := hrest.count P (fun k hk => by
      have := hP (m + k) (by omega)
      rwa [show off + (m + k) = off + m + k by omega] at this)
    have hmiss := h.owned.missing_patchBlock (x := src.byte.slice tot m) hi hoff hmapped P
    rw [huw, hu, hmiss, free_patchBlock] at htail
    omega

theorem writeLoop_runs (rounds : Nat) (hown : Owned sb s.view) (htrans : s.trans = true)
    (hi : s.inum < sb.ninodes) (htype : s.ip.type ≠ .free)
    (hmax : off + (n - tot) ≤ MAXFILE * BSIZE) (hrounds : n - tot ≤ rounds) :
    Runs (fun _ => False) (writeLoop sb src rounds tot off n) s
      (fun r s' => ∃ w e, r = (tot + w, off + w) ∧ Wrote sb src s tot off n w e s') := by
  induction rounds generalizing tot off s with
  | zero =>
    exact ⟨0, 0, rfl, Wrote.nothing hown (by omega)⟩
  | succ rounds ih =>
    unfold writeLoop
    split
    · rename_i hlt
      have hmod : off % BSIZE < BSIZE := Nat.mod_lt _ (by decide)
      have hoff : off / BSIZE < MAXFILE := Nat.div_lt_of_lt_mul (by rw [Nat.mul_comm]; omega)
      refine .call (bmap_runs hown htrans hi htype hoff) ?_
      intro addr t ht
      split
      · -- the disk is full
        rename_i hzero
        refine ⟨0, 0, rfl, ht.owned, ht.inum, ht.trans, ht.size, by omega, ht.extends'.changes,
          ?_, ?_, ?_, Or.inl rfl, ?_, ?_⟩
        · omega
        · omega
        · intro R _ k hk
          omega
        · exact Or.inl ⟨rfl, fun _ => ⟨ht.full hzero, ht.addr.symm.trans hzero⟩⟩
        · intro P hP
          have hfirst := hP 0 (by omega)
          exact ht.count P hfirst.1 hfirst.2
      rename_i hne
      refine .bind (bread_runs ?_)
      have hmapped : t.view.fileAddr s.inum (off / BSIZE) ≠ 0 := by rwa [← ht.addr]
      have hview : ∀ x, (File.mk t.inum t.ip (t.disk.setBlock addr ((t.disk.block addr).patch
          (off % BSIZE) x)) t.trans).view = t.view.patchBlock s.inum off x := by
        intro x
        rw [patchBlock, ← ht.addr]
        rfl
      obtain ⟨m, hm⟩ : ∃ m, m = min (n - tot) (BSIZE - off % BSIZE) := ⟨_, rfl⟩
      have hfit : off % BSIZE + m ≤ BSIZE ∧ 0 < m ∧ tot + m ≤ n := by omega
      rw [← hm]
      have hrest := hview (src.copy tot m)
      refine .ite ?_ ?_
      · intro hall
        rw [Source.copy, hall] at hrest ⊢
        refine .bind (bwrite_runs (ht.trans.trans htrans) ?_)
        have hmax' : off + m + (n - (tot + m)) ≤ MAXFILE * BSIZE := by omega
        have hrounds' : n - (tot + m) ≤ rounds := by omega
        refine (ih ?_ ?_ ?_ ?_ hmax' hrounds').post ?_
        · rw [hrest]
          exact ht.owned.store hi hoff hmapped
        · exact ht.trans.trans htrans
        · exact ht.inum ▸ hi
        · exact ht.type ▸ htype
        · rintro r u ⟨w, e, rfl, hu⟩
          refine ⟨m + w, m + e, by simp only [Nat.add_assoc], ?_⟩
          exact hu.chunk ht hi hmax hne hm hlt hall hrest rfl rfl rfl
      · -- the copy fails, and the bytes that arrived stay in the buffer
        intro hshort
        have harrives := src.arrives_le tot m
        refine .bind (.modify (.pure ⟨0, src.arrives tot m, rfl, ?_⟩))
        have hsame : ∀ k, k < src.arrives tot m → (off + k) / BSIZE = off / BSIZE := by
          intro k hk
          have ho := Nat.div_add_mod off BSIZE
          simp only [BSIZE] at hfit ho ⊢
          omega
        refine ⟨?_, ht.inum, ht.trans, ht.size, by omega, ?_, ?_, ?_, ?_, Or.inl rfl, ?_, ?_⟩
        · rw [hrest]
          exact ht.owned.store hi hoff hmapped
        · rw [hrest]
          exact ht.extends'.changes.trans
            (ht.owned.changes_patchBlock hi hoff hmapped _ _ (by omega))
        · intro k hk
          rw [hrest, hsame k hk, patchBlock, Disk.fileAddr, ht.owned.addr_store hi hoff hmapped hi]
          exact hmapped
        · intro k hk
          rw [hrest, Source.copy, ht.owned.byte_patchBlock hi hoff hmapped (by omega) hi
            (by rw [hsame k hk]; exact hoff), if_pos ⟨rfl, by omega, by omega⟩,
            Nat.add_sub_cancel_left]
        · intro R hR k hk
          exact hR tot m k hk
        · refine Or.inr ⟨?_, ?_⟩
          · rw [Nat.add_zero, Nat.add_zero, Nat.sub_zero, chunkSize, ← hm, Nat.sub_zero]
          · rw [Nat.add_zero, Nat.sub_zero, Nat.sub_zero, chunkSize, ← hm]
            omega
        · intro P hP
          have hfirst := hP 0 (by omega)
          rw [hrest, free_patchBlock, ht.owned.missing_patchBlock hi hoff hmapped]
          exact ht.count P hfirst.1 hfirst.2
    · exact ⟨0, 0, rfl, Wrote.nothing hown (by omega)⟩

/-! ## `writei` -/

/-- `writei` has written `w` bytes from the offset `off` on, and has touched
`e`.  The inode is written back. -/
structure Written (sb : Superblock) (src : Source) (s : File) (off n w e : Nat) (s' : File) :
    Prop where
  intact : Intact sb s'.view
  inum : s'.inum = s.inum
  trans : s'.trans = s.trans
  synced : s'.disk = s'.view
  size : s'.ip.size = max s.ip.size (off + w)
  le : w ≤ e ∧ e ≤ n
  changes : Changes sb s.inum off (off + e) s.view s'.view
  data : ∀ k, k < e → s'.view.byte s.inum (off + k) = src.byte k
  arrived : ∀ R : Nat → Prop, (∀ x m k, k < src.arrives x m → R (x + k)) → ∀ k, k < e → R k
  boundary : w = 0 ∨ w = n ∨ (off + w) % BSIZE = 0
  stop : (e = w ∧ (w < n →
      Full sb s'.view ∧ s'.view.fileAddr s.inum ((off + w) / BSIZE) = 0)) ∨
    (src.arrives w (chunkSize (off + w) (n - w)) = e - w ∧
      e - w < chunkSize (off + w) (n - w))
  count : ∀ P : Finset Nat, (∀ k, k < n → place ((off + k) / BSIZE) ∈ P ∧
      (NDIRECT ≤ (off + k) / BSIZE → NDIRECT ∈ P)) →
    free sb s'.view + missing s.view s.inum P = free sb s.view + missing s'.view s.inum P

theorem Written.readable {w e : Nat} (h : Written sb src s off n w e s')
    (hread : src.Readable n) : e = w ∧ (w < n →
      Full sb s'.view ∧ s'.view.fileAddr s.inum ((off + w) / BSIZE) = 0) := by
  rcases h.stop with hstop | ⟨harr, hlt⟩
  · exact hstop
  · have hfit : w + chunkSize (off + w) (n - w) ≤ n := by
      unfold chunkSize at hlt ⊢
      omega
    rw [hread _ _ hfit] at harr
    omega

/-- The checks of `writei`, without the wrapping. -/
theorem writei_accepts (size : Nat) (off n : UInt32) :
    (¬ (off.toNat > size ∨ off + n < off) ∧ ¬ (off + n).toNat > MAXFILE * BSIZE) ↔
      off.toNat ≤ size ∧ off.toNat + n.toNat ≤ MAXFILE * BSIZE := by
  have hoff := off.toNat_lt
  have hn := n.toNat_lt
  simp only [UInt32.lt_iff_toNat_lt, UInt32.toNat_add, MAXFILE, BSIZE, NDIRECT, NINDIRECT]
  omega

/-- The new size, and the blocks that it covers. -/
theorem Wrote.written {w e : Nat} (h : Wrote sb src s 0 off n w e t) (hs : Intact sb s.view)
    (hi : s.inum < sb.ninodes) (htype : s.ip.type ≠ .free) (hsize : off ≤ s.ip.size)
    (hmax : off + n ≤ MAXFILE * BSIZE)
    (hip : s'.ip = { t.ip with size := max t.ip.size (off + w) })
    (hdisk : s'.disk = t.disk.put t.inum s'.ip) (hinum : s'.inum = t.inum)
    (htrans : s'.trans = t.trans) : Written sb src s off n w e s' := by
  have hview : s'.view = t.view.put s.inum s'.ip := by
    rw [File.view, hdisk, hinum, put_put, File.view, h.inum, put_put]
  have haddrs : s'.ip.addrs = (t.view.dinode s.inum).addrs := by
    rw [hip, ← h.inum, dinode_view]
  have hle := h.le
  have hput : Changes sb s.inum off (off + e) t.view s'.view := by
    rw [hview]
    refine ⟨fun j hj => dinode_put_of_ne hj, ?_, ?_, ?_, ?_⟩
    · refine ⟨t.ip.addrs, max t.ip.size (off + w), ?_⟩
      rw [dinode_put_self, ← h.inum, dinode_view, hip]
    · exact fun _ _ _ _ _ => addr_put_addrs haddrs
    · exact fun _ _ _ _ => addr_put_addrs haddrs
    · exact fun _ _ _ _ _ _ => byte_put_addrs haddrs
  have hchanges := h.changes.trans hput
  have hfile : ∀ bn, s'.view.fileAddr s.inum bn = t.view.fileAddr s.inum bn := by
    intro bn
    rw [hview]
    exact addr_put_addrs haddrs
  have hnewsize : s'.ip.size = max s.ip.size (off + w) := by rw [hip, h.size]
  have hnode : s'.view.dinode s.inum = s'.ip := by rw [hview, dinode_put_self]
  have hold : ∀ j bn, j < sb.ninodes → bn < blocks (s.view.dinode j).size →
      s'.view.fileAddr j bn ≠ 0 := by
    intro j bn hj hbn
    have hne := hs.whole j bn hj hbn
    rw [hchanges.fileAddr hj (lt_MAXFILE (hs.bounded j hj) hbn) hne]
    exact hne
  refine ⟨⟨?_, ?_, ?_⟩, hinum.trans h.inum, htrans.trans h.trans, ?_, hnewsize, by omega,
    hchanges, ?_, ?_, ?_, ?_, ?_⟩
  · -- the blocks are owned
    rw [hview]
    refine h.owned.renode haddrs (Or.inl ?_)
    obtain ⟨a, z, ha⟩ := h.changes.node
    rw [← h.inum, dinode_view, h.inum, dinode_view] at ha
    rw [hip, ha]
    exact htype
  · -- every covered block is there
    intro j bn hj hbn
    by_cases hji : j = s.inum
    · rw [hji, hnode, hnewsize] at hbn
      rw [hji]
      by_cases hbs : bn < blocks s.ip.size
      · exact hold s.inum bn hi (by rwa [dinode_view])
      · rw [hfile]
        have hmapped := h.mapped (bn * BSIZE - off)
        have hk : bn * BSIZE - off < w ∧ (off + (bn * BSIZE - off)) / BSIZE = bn := by
          simp only [blocks, BSIZE] at hbn hbs ⊢
          omega
        rw [hk.2] at hmapped
        exact hmapped (hk.1.trans_le hle.1)
    · rw [hchanges.other j hji] at hbn
      exact hold j bn hj hbn
  · -- and the size is bounded
    intro j hj
    by_cases hji : j = s.inum
    · have := hs.bounded s.inum hi
      rw [dinode_view] at this
      rw [hji, hnode, hnewsize]
      omega
    · rw [hchanges.other j hji]
      exact hs.bounded j hj
  · rw [hview, hdisk, h.inum, File.view, h.inum, put_put]
  · intro k hk
    rw [hview, byte_put_addrs haddrs, h.data k hk, Nat.zero_add]
  · intro R hR k hk
    have := h.arrived R hR k hk
    rwa [Nat.zero_add] at this
  · exact h.boundary
  · have hstop := h.stop
    rw [Nat.zero_add, Nat.sub_zero] at hstop
    refine hstop.imp_left ?_
    rintro ⟨heq, hfull⟩
    refine ⟨heq, fun hw => ?_⟩
    obtain ⟨hfull, hzero⟩ := hfull hw
    refine ⟨?_, (hfile _).trans hzero⟩
    rw [hview]
    exact hfull
  · intro P hP
    have hcount := h.count P hP
    have hmiss : missing s'.view s.inum P = missing t.view s.inum P := by
      unfold missing
      congr 2
      funext k
      rw [hview, addr_put_addrs haddrs]
    have hfree : free sb s'.view = free sb t.view := by
      rw [hview]
      rfl
    omega

theorem writei_runs {off n : UInt32} (hs : Intact sb s.view) (htrans : s.trans = true)
    (hi : s.inum < sb.ninodes) (htype : s.ip.type ≠ .free) :
    Runs (fun _ => False) (writei sb src off n) s (fun r s' =>
      if off.toNat ≤ s.ip.size ∧ off.toNat + n.toNat ≤ MAXFILE * BSIZE then
        ∃ w e, r = (w : Nat) ∧ Written sb src s off.toNat n.toNat w e s'
      else r = -1 ∧ s' = s) := by
  have haccepts := writei_accepts s.ip.size off n
  unfold writei
  refine .bind (.get ?_)
  split
  · rename_i hbad
    refine .pure ?_
    rw [if_neg (fun hc => (haccepts.mpr hc).1 hbad)]
    exact ⟨rfl, rfl⟩
  split
  · rename_i hbad
    refine .pure ?_
    rw [if_neg (fun hc => (haccepts.mpr hc).2 hbad)]
    exact ⟨rfl, rfl⟩
  rename_i h1 h2
  obtain ⟨hsize, hmax⟩ := haccepts.mp ⟨h1, h2⟩
  refine .call (writeLoop_runs n.toNat hs.toOwned htrans hi htype (by omega) (by omega)) ?_
  rintro r t ⟨w, e, rfl, h⟩
  refine .bind (.modify (.bind (.bind (logWrite_runs (h.trans.trans htrans) (.modify (.pure ?_))))))
  rw [if_pos ⟨hsize, hmax⟩]
  refine ⟨w, e, by rw [Nat.zero_add], ?_⟩
  refine h.written hs hi htype hsize hmax ?_ rfl rfl rfl
  dsimp only
  split
  · rw [Nat.max_eq_right (by omega)]
  · rw [Nat.max_eq_left (by omega)]

/-! ## `readi` -/

/-- The bytes from `off` on of the file with inode `i`. -/
def Disk.bytes (d : Disk) (i off n : Nat) : List UInt8 := Buffer.slice (d.byte i) off n

/-- How many bytes `readi` returns. -/
def readCount (size off n : Nat) : Nat :=
  if off ≤ size ∧ off + n < 2 ^ 32 then min n (size - off) else 0

section Read

variable {dst : Sink} {out : List UInt8}
  (hwhole : ∀ bn, bn < blocks s.ip.size → s.view.fileAddr s.inum bn ≠ 0)
  (hbound : s.ip.size ≤ MAXFILE * BSIZE)
include hwhole hbound

theorem readLoop_runs (rounds : Nat) (hoff : off + (n - tot) ≤ s.ip.size)
    (hrounds : n - tot ≤ rounds) (hle : tot ≤ n) :
    Runs (fun _ => False) (readLoop sb dst rounds tot off n out) s (fun r s' => s' = s ∧
      (r = ((n : Int), out ++ s.view.bytes s.inum off (n - tot)) ∨
        r.1 = -1 ∧ ∃ x m, dst x m = false)) := by
  induction rounds generalizing tot off out with
  | zero =>
    have hn : n - tot = 0 := by omega
    rw [hn]
    refine ⟨rfl, Or.inl ?_⟩
    rw [Disk.bytes, Buffer.slice, List.range_zero, List.map_nil, List.append_nil,
      show tot = n by omega]
  | succ rounds ih =>
    unfold readLoop
    split
    · rename_i hlt
      have hcover : off / BSIZE < blocks s.ip.size := div_lt_blocks (by omega)
      have hne := hwhole _ hcover
      refine .call (bmap_found (lt_MAXFILE hbound hcover) hne) ?_
      rintro addr t ⟨rfl, rfl⟩
      rw [if_neg hne]
      refine .bind (bread_runs ?_)
      have hmod : off % BSIZE < BSIZE := Nat.mod_lt _ (by decide)
      obtain ⟨m, hm⟩ : ∃ m, m = min (n - tot) (BSIZE - off % BSIZE) := ⟨_, rfl⟩
      have hfit : off % BSIZE + m ≤ BSIZE ∧ 0 < m ∧ tot + m ≤ n := by omega
      rw [← hm]
      dsimp only
      -- the bytes of the chunk are bytes of the file
      have hchunk : (t.disk.block (t.view.fileAddr t.inum (off / BSIZE))).slice (off % BSIZE) m =
          t.view.bytes t.inum off m := by
        refine Buffer.slice_shift (fun k hk => ?_)
        have hdiv : (off + k) / BSIZE = off / BSIZE ∧ (off + k) % BSIZE = off % BSIZE + k := by
          simp only [BSIZE] at hfit ⊢
          omega
        rw [Disk.byte, hdiv.1, hdiv.2]
        rfl
      rw [hchunk]
      refine .ite ?_ ?_
      · intro _
        have hoff' : off + m + (n - (tot + m)) ≤ t.ip.size := by omega
        have hrounds' : n - (tot + m) ≤ rounds := by omega
        refine (ih hoff' hrounds' hfit.2.2).post ?_
        rintro r u ⟨rfl, hr⟩
        refine ⟨rfl, hr.imp_left (fun hr => ?_)⟩
        rw [hr, List.append_assoc, Disk.bytes, Disk.bytes, Disk.bytes, ← Buffer.slice_append,
          show m + (n - (tot + m)) = n - tot by omega]
      · intro hfail
        exact ⟨rfl, Or.inr ⟨rfl, tot, m, by simpa using hfail⟩⟩
    · have hn : n - tot = 0 := by omega
      rw [hn]
      refine ⟨rfl, Or.inl ?_⟩
      rw [Disk.bytes, Buffer.slice, List.range_zero, List.map_nil, List.append_nil,
        show tot = n by omega]

/-- `readi` changes nothing, and returns the bytes that are there. -/
theorem readi_runs (off' n' : UInt32) : Runs (fun _ => False) (readi sb dst off' n') s (fun r s' => s' = s ∧
      (r = ((readCount s.ip.size off'.toNat n'.toNat : Int),
        s.view.bytes s.inum off'.toNat (readCount s.ip.size off'.toNat n'.toNat)) ∨
        r.1 = -1 ∧ ∃ x m, dst x m = false)) := by
  have hoff := off'.toNat_lt
  have hn := n'.toNat_lt
  have hsum : off' + n' < off' ↔ 2 ^ 32 ≤ off'.toNat + n'.toNat := by
    rw [UInt32.lt_iff_toNat_lt, UInt32.toNat_add]
    omega
  unfold readi
  refine .bind (.get ?_)
  split
  · rename_i hbad
    rw [hsum] at hbad
    refine ⟨rfl, Or.inl ?_⟩
    rw [readCount, if_neg (by omega)]
    rfl
  · rename_i hgood
    rw [hsum] at hgood
    dsimp only
    have hcount : (if (off' + n').toNat > s.ip.size then s.ip.size - off'.toNat else n'.toNat) =
        readCount s.ip.size off'.toNat n'.toNat := by
      have hok : off'.toNat ≤ s.ip.size ∧ off'.toNat + n'.toNat < 2 ^ 32 := by omega
      rw [readCount, if_pos hok, UInt32.toNat_add, Nat.mod_eq_of_lt hok.2]
      split <;> omega
    rw [hcount]
    have hmax : off'.toNat + (readCount s.ip.size off'.toNat n'.toNat - 0) ≤ s.ip.size := by
      rw [readCount, if_pos (by omega)]
      omega
    exact readLoop_runs hwhole hbound _ hmax (by omega) (by omega)

end Read

end Xv6.FileSystem
