import LinuxRouter.Upgrade.Hash
import LinuxRouter.Model.Upgrade

/-!
# Upgrade — an image in pieces

Whether an image is written in one piece or in two makes no difference.

* `Hashing.unique`: the state of the hash is that of its message.
* `ImageFile` is a session that has its file; `upgradeBegin_open` and `upgradeWrite_open` keep it.
* `upgradeWrite_append`: two writes are one, or the first that fails fails as one would.

Three things in `upgrade_write` depend on where a piece ends: the first four bytes, which are
collected until there are four, the hash, which has a buffer, and the file, which has an offset.
Each of them is the same after `p` and then `q` as after `p ++ q`; for the hash because its state is
a function of what it has taken in (`Hashing.unique`).  That is what makes the router's own file
calls `Seamless`, as the comparison of sessions in `Remote` needs it.
-/

namespace LinuxRouter

open Text (lit)
open Files (Fs File)

/-- **The state of the hash is that of its message.** -/
theorem Hashing.unique {a b : Sha256} {m : List Byte} (ha : Hashing a m) (hb : Hashing b m) : a = b := by
  obtain ⟨state, bitlen, buf⟩ := a
  obtain ⟨rfl, rfl, rfl⟩ := ha
  obtain ⟨state, bitlen, buf⟩ := b
  obtain ⟨rfl, rfl, rfl⟩ := hb
  rfl

/-- A file for an image, and its hash. -/
def ImageFile (u : Upgrade) : Prop :=
  u.fp.isSome = true ∧ (u.haveSha = true → ∃ b, Hashing u.hc b)

/-- A session that begins has its file. -/
theorem upgradeBegin_open {o : FileCalls} {sha : List Byte} {size : ℕ} {u : Upgrade} {fs : Disk}
    (h : (upgradeBegin o sha size u fs).1 = none) : ImageFile (upgradeBegin o sha size u fs).2.1 := by
  revert h
  unfold upgradeBegin
  split
  · exact fun h => nomatch h
  · split
    · exact fun h => nomatch h
    · split
      · exact fun h => nomatch h
      · exact fun h => nomatch h
      · dsimp only
        split
        · exact fun h => nomatch h
        · split
          · split
            · exact fun h => nomatch h
            · exact fun _ => ⟨rfl, fun _ => ⟨[], hashing_init⟩⟩
          · rename_i hsha
            exact fun _ => ⟨rfl, fun h => absurd h hsha⟩

/-- The first bytes of two pieces. -/
theorem take_cut (front p q : List Byte) (n : ℕ) :
    front ++ (p ++ q).take (n - front.length) =
      front ++ p.take (n - front.length) ++
        q.take (n - (front ++ p.take (n - front.length)).length) := by
  have hn : n - front.length - p.length = n - (front.length + min (n - front.length) p.length) := by
    omega
  rw [List.take_append, List.append_assoc, List.length_append, List.length_take, hn]

section

variable {o : FileCalls} {u : Upgrade} {fs : Disk} {f : File}

/-- A write that the file takes whole. -/
theorem upgradeWrite_whole (ho : o.wrote = none) (hf : u.fp = some f) (p : List Byte) :
    upgradeWrite o p u fs = if u.expected < u.received + p.length then
        (errText (lit "size exceeded"), u, fs)
      else (none, { u with
        first4 := u.first4 ++ p.take (4 - u.first4.length)
        fp := some (fs.write f p).1
        hc := if u.haveSha then sha256Update u.hc p else u.hc
        received := u.received + p.length }, (fs.write f p).2) := by
  unfold upgradeWrite
  simp only [ho, hf]

/-- **The writes of an image** may be cut. -/
theorem upgradeWrite_append (ho : o.wrote = none) (hu : ImageFile u) (p q : List Byte) :
    let r := upgradeWrite o p u fs
    let r' := upgradeWrite o q r.2.1 r.2.2
    let t := upgradeWrite o (p ++ q) u fs
    t.1 = r.1.or r'.1 ∧ (t.1 = none → t.2 = r'.2) := by
  obtain ⟨hfp, hh⟩ := hu
  obtain ⟨f, hf⟩ := Option.isSome_iff_exists.mp hfp
  have hsha : (if u.haveSha = true then sha256Update u.hc (p ++ q) else u.hc) =
      if u.haveSha = true then
        sha256Update (if u.haveSha = true then sha256Update u.hc p else u.hc) q
      else if u.haveSha = true then sha256Update u.hc p else u.hc := by
    by_cases h : u.haveSha = true
    · obtain ⟨b, hb⟩ := hh h
      simp only [h, if_true]
      exact (hb.update (p ++ q)).unique (List.append_assoc b p q ▸ (hb.update p).update q)
    · simp only [h, if_false, Bool.false_eq_true]
  dsimp only
  rw [upgradeWrite_whole ho hf p, upgradeWrite_whole ho hf (p ++ q), List.length_append]
  by_cases hp : u.expected < u.received + p.length
  · rw [if_pos hp, if_pos (by omega)]
    exact ⟨rfl, fun h => nomatch h⟩
  · rw [if_neg hp, upgradeWrite_whole ho rfl q]
    dsimp only
    rw [Nat.add_assoc]
    by_cases hq : u.expected < u.received + (p.length + q.length)
    · rw [if_pos hq, if_pos hq]
      exact ⟨rfl, fun h => nomatch h⟩
    · rw [if_neg hq, if_neg hq, Fs.write_append, hsha, take_cut]
      exact ⟨rfl, fun _ => rfl⟩

theorem upgradeWrite_open (ho : o.wrote = none) (hu : ImageFile u) (p : List Byte) :
    ImageFile (upgradeWrite o p u fs).2.1 := by
  obtain ⟨hfp, hh⟩ := hu
  obtain ⟨f, hf⟩ := Option.isSome_iff_exists.mp hfp
  rw [upgradeWrite_whole ho hf]
  split
  · exact ⟨hfp, hh⟩
  · refine ⟨rfl, fun h => ?_⟩
    obtain ⟨b, hb⟩ := hh h
    exact ⟨b ++ p, by
      rw [if_pos h]
      exact hb.update p⟩

end

end LinuxRouter
