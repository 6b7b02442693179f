import ScraperTimeline.Proofs.Artifact.Keys
import Mathlib.Algebra.Order.Ring.Nat

/-!
Fingerprints tell identities apart. The message of an identity determines its parts, and the digits of a
fingerprint determine the hash, so only a collision of the hash gives one fingerprint to two identities.
-/
namespace ScraperTimeline

-- A number is determined by its digits in some base, if it has no more than are compared.
theorem eq_of_digits_eq {b k m n : Nat} (hm : m < b ^ k) (hn : n < b ^ k)
    (h : ∀ i < k, m / b ^ i % b = n / b ^ i % b) : m = n := by
  induction k generalizing m n with
  | zero =>
      rw [pow_zero, Nat.lt_one_iff] at hm hn
      rw [hm, hn]
  | succ k ih =>
      have hlast : m % b = n % b := by simpa using h 0 (Nat.succ_pos k)
      have hrest : m / b = n / b := by
        refine ih (Nat.div_lt_of_lt_mul ?_) (Nat.div_lt_of_lt_mul ?_) fun i hi => ?_
        · rwa [← pow_succ']
        · rwa [← pow_succ']
        · rw [Nat.div_div_eq_div_mul, Nat.div_div_eq_div_mul, ← pow_succ']
          exact h (i + 1) (Nat.succ_lt_succ hi)
      rw [← Nat.div_add_mod m b, ← Nat.div_add_mod n b, hlast, hrest]

-- Lists that are written one item after another, each in the same space, are determined by what is written.
theorem flatMap_inj_of_length {α β : Type} {f : α → List β} {k : Nat} (hpos : 0 < k)
    (hlength : ∀ a, (f a).length = k) (hf : ∀ a b, f a = f b → a = b) {as bs : List α}
    (h : as.flatMap f = bs.flatMap f) : as = bs := by
  have hne (a : α) (rest : List β) : [] ≠ f a ++ rest := by
    intro hnil
    have hzero := congrArg List.length hnil
    rw [List.length_append, hlength, List.length_nil] at hzero
    omega
  induction as generalizing bs with
  | nil =>
      cases bs with
      | nil => rfl
      | cons b bs => exact (hne b _ h).elim
  | cons a as ih =>
      cases bs with
      | nil => exact (hne a _ h.symm).elim
      | cons b bs =>
          rw [List.flatMap_cons, List.flatMap_cons] at h
          obtain ⟨hfirst, hrest⟩ := List.append_inj h (by rw [hlength, hlength])
          rw [hf a b hfirst, ih hrest]

namespace Sha256

theorem length_lengthBytes (n : Nat) : (lengthBytes n).length = 8 := rfl

theorem lengthBytes_inj {m n : Nat} (hm : m < 2 ^ 64) (hn : n < 2 ^ 64)
    (h : lengthBytes m = lengthBytes n) : m = n := by
  have hbytes := List.map_inj_left.mp h
  refine eq_of_digits_eq (b := 256) (k := 8) hm hn fun i hi => ?_
  have hbyte := congrArg UInt8.toNat (hbytes i (by simp; omega))
  simpa using hbyte

-- Two messages with one hash.
def Collision (message other : List UInt8) : Prop := message ≠ other ∧ hash message = hash other

end Sha256

namespace Fingerprint
open Sha256

variable {parts others : List (List UInt8)}

theorem message_cons (part : List UInt8) (parts : List (List UInt8)) :
    message (part :: parts) = lengthBytes part.length ++ (part ++ message parts) := by
  rw [message, List.flatMap_cons, List.append_assoc]
  rfl

theorem message_cons_ne_nil (part : List UInt8) (parts : List (List UInt8)) :
    message (part :: parts) ≠ [] := by
  rw [message_cons]
  exact List.cons_ne_nil _ _

-- The first eight bytes tell where the first part ends.
theorem message_inj (h : ∀ part ∈ parts, part.length < 2 ^ 64)
    (h' : ∀ part ∈ others, part.length < 2 ^ 64) (heq : message parts = message others) :
    parts = others := by
  induction parts generalizing others with
  | nil =>
      cases others with
      | nil => rfl
      | cons other others => exact (message_cons_ne_nil other others heq.symm).elim
  | cons part parts ih =>
      cases others with
      | nil => exact (message_cons_ne_nil part parts heq).elim
      | cons other others =>
          obtain ⟨hpart, hparts⟩ := List.forall_mem_cons.mp h
          obtain ⟨hother, hothers⟩ := List.forall_mem_cons.mp h'
          rw [message_cons, message_cons] at heq
          obtain ⟨hcount, hafter⟩ :=
            List.append_inj heq ((length_lengthBytes _).trans (length_lengthBytes _).symm)
          obtain ⟨rfl, hrest⟩ := List.append_inj hafter (lengthBytes_inj hpart hother hcount)
          rw [ih hparts hothers hrest]

theorem digitChar_inj {m n : Nat} (hm : m < 16) (hn : n < 16) (h : Nat.digitChar m = Nat.digitChar n) :
    m = n := by
  have hall : ∀ m < 16, ∀ n < 16, Nat.digitChar m = Nat.digitChar n → m = n := by decide
  exact hall m hm n hn h

theorem wordDigits_inj (w v : UInt32) (h : wordDigits w = wordDigits v) : w = v := by
  have hdigits := List.map_inj_left.mp h
  refine UInt32.toNat_inj.mp (eq_of_digits_eq (b := 16) (k := 8) w.toNat_lt v.toNat_lt fun i hi => ?_)
  exact digitChar_inj (Nat.mod_lt _ (by decide)) (Nat.mod_lt _ (by decide)) (hdigits i (by simp; omega))

theorem hash_eq_of_of_eq (h : of parts = of others) :
    Sha256.hash (message parts) = Sha256.hash (message others) := by
  have htext := String.ofList_injective (Fingerprint.mk.inj h)
  exact flatMap_inj_of_length (k := 8) (by decide) (fun _ => rfl) wordDigits_inj htext

theorem read_text {f : Fingerprint} (h : f.Valid) : read f.text = .ok f := by
  rw [read, if_pos ⟨h.length, List.all_eq_true.mpr h.digits⟩]

-- Different identities give different messages, have one fingerprint only by a collision, and fingerprints
-- are read back as they are.
theorem identities_told_apart (h : ∀ part ∈ parts, part.length < 2 ^ 64)
    (h' : ∀ part ∈ others, part.length < 2 ^ 64) :
    (message parts = message others ↔ parts = others) ∧
      (of parts = of others → parts = others ∨ Collision (message parts) (message others)) ∧
      ∀ any : List (List UInt8), read (of any).text = .ok (of any) := by
  have hmessage : message parts = message others ↔ parts = others :=
    ⟨message_inj h h', congrArg message⟩
  refine ⟨hmessage, fun hof => ?_, fun any => read_text (valid_of any)⟩
  by_cases hsame : parts = others
  · exact .inl hsame
  · exact .inr ⟨fun heq => hsame (hmessage.mp heq), hash_eq_of_of_eq hof⟩

-- A part that looks like the length of another one, behind an empty one.
theorem identities_told_apart_nested :
    (∀ part ∈ ([[], [0, 0, 0, 0, 0, 0, 0, 0]] : List (List UInt8)), part.length < 2 ^ 64) ∧
      (∀ part ∈ ([[], [], []] : List (List UInt8)), part.length < 2 ^ 64) ∧
      message [[], [0, 0, 0, 0, 0, 0, 0, 0]] ≠ message [[], [], []] ∧
      read (of [[], [0, 0, 0, 0, 0, 0, 0, 0]]).text = .ok (of [[], [0, 0, 0, 0, 0, 0, 0, 0]]) := by
  have hnested : ∀ part ∈ ([[], [0, 0, 0, 0, 0, 0, 0, 0]] : List (List UInt8)), part.length < 2 ^ 64 := by
    decide
  have hempty : ∀ part ∈ ([[], [], []] : List (List UInt8)), part.length < 2 ^ 64 := by decide
  obtain ⟨hmessage, -, hread⟩ := identities_told_apart hnested hempty
  exact ⟨hnested, hempty, fun heq => absurd (hmessage.mp heq) (by decide), hread _⟩

end Fingerprint
end ScraperTimeline
