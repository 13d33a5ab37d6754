import DiscoBsd.Clists.Routines
import Mathlib.Data.List.Nodup

/-!
# The characters of a chain of blocks

`Chars` relates a nonempty list of blocks in memory, with the addresses of its first character and
after its last one, to the characters in it. The lemmas follow the ends of the list: what the removal
of the first character leaves, what another character at the end adds, in the last block or in a new
one, and what the removal of the last one leaves. Each has its cases at a block boundary. Blocks have
32 bytes here, of which the link takes 4.
-/

namespace DiscoBsd.Clists

open DiscoBsd.Lib

theorem block_eq {a b : Nat} (hb : b % 32 = 0) (hle : b ≤ a) (hlt : a < b + 32) :
    block a = b := by
  simp only [block, CBLOCK]
  omega

/-- The characters from `cf` to `c_cl`, in a list of blocks of which `cf` is in the first. -/
inductive Chars (c_next : Nat → Nat) (c_info : Nat → UInt8) (c_cl : Nat) :
    Nat → List Nat → List UInt8 → Prop where
  | last {cf b : Nat} : b % 32 = 0 → b + 4 ≤ cf → cf < c_cl → c_cl ≤ b + 32 →
      c_next b = 0 → Chars c_next c_info c_cl cf [b] (bytes c_info cf (c_cl - cf))
  | more {cf b b' : Nat} {bs : List Nat} {rest : List UInt8} : b % 32 = 0 → b + 4 ≤ cf →
      cf < b + 32 → c_next b = b' → Chars c_next c_info c_cl (b' + 4) (b' :: bs) rest →
      Chars c_next c_info c_cl cf (b :: b' :: bs) (bytes c_info cf (b + 32 - cf) ++ rest)

namespace Chars

variable {c_next c_next' : Nat → Nat} {c_info c_info' : Nat → UInt8} {c_cl cf : Nat}
  {blocks : List Nat} {content : List UInt8}

/-- Only the links and the characters in the blocks of the list matter. -/
theorem congr (h : Chars c_next c_info c_cl cf blocks content)
    (hnext : ∀ b ∈ blocks, c_next' b = c_next b)
    (hinfo : ∀ b ∈ blocks, ∀ a, b + 4 ≤ a → a < b + 32 → c_info' a = c_info a) :
    Chars c_next' c_info' c_cl cf blocks content := by
  induction h with
  | @last cf b hb hle hlt hcl hnull =>
      rw [← bytes_congr fun a ha halt =>
        hinfo b List.mem_cons_self a (by omega) (by omega)]
      exact last hb hle hlt hcl ((hnext b List.mem_cons_self).trans hnull)
  | @more cf b b' bs rest hb hle hlt hlink _ ih =>
      rw [← bytes_congr fun a ha halt =>
        hinfo b List.mem_cons_self a (by omega) (by omega)]
      exact more hb hle hlt ((hnext b List.mem_cons_self).trans hlink)
        (ih (fun b hmem => hnext b (List.mem_cons_of_mem _ hmem))
          fun b hmem => hinfo b (List.mem_cons_of_mem _ hmem))

theorem exists_last (h : Chars c_next c_info c_cl cf blocks content) :
    ∃ before b, blocks = before ++ [b] ∧ b % 32 = 0 ∧ b + 4 < c_cl ∧ c_cl ≤ b + 32 ∧
      c_next b = 0 := by
  induction h with
  | @last cf b hb hle hlt hcl hnull => exact ⟨[], b, rfl, hb, by omega, hcl, hnull⟩
  | @more cf b b' bs rest hb hle hlt hlink _ ih =>
      obtain ⟨before, b₁, heq, hlast⟩ := ih
      exact ⟨b :: before, b₁, by rw [heq]; rfl, hlast⟩

theorem aligned (h : Chars c_next c_info c_cl cf blocks content) : ∀ b ∈ blocks, b % 32 = 0 := by
  induction h with
  | last hb => simpa using hb
  | more hb _ _ _ _ ih =>
      intro b hmem
      rcases List.mem_cons.mp hmem with rfl | hmem
      · exact hb
      · exact ih b hmem

theorem exists_first (h : Chars c_next c_info c_cl cf blocks content) :
    ∃ b bs, blocks = b :: bs ∧ b % 32 = 0 ∧ b + 4 ≤ cf ∧ cf < b + 32 := by
  cases h with
  | last hb hle hlt hcl _ => exact ⟨_, _, rfl, hb, hle, by omega⟩
  | more hb hle hlt _ _ => exact ⟨_, _, rfl, hb, hle, hlt⟩

/-- The blocks have room for the characters, those that are gone and those that may come. -/
theorem geometry (h : Chars c_next c_info c_cl cf blocks content) :
    cf % 32 - 4 + content.length + (31 - (c_cl - 1) % 32) =
      28 * blocks.length := by
  induction h with
  | last hb hle hlt hcl _ =>
      rw [bytes_length, List.length_singleton]
      omega
  | @more cf b b' bs rest hb hle hlt hlink hrest ih =>
      rw [List.length_append, bytes_length, List.length_cons]
      have hb' : b' % 32 = 0 := hrest.aligned b' List.mem_cons_self
      have hoff : (b' + 4) % 32 - 4 = 0 := by omega
      rw [hoff] at ih
      omega

theorem content_ne_nil (h : Chars c_next c_info c_cl cf blocks content) : content ≠ [] := by
  rintro rfl
  have hgeometry := h.geometry
  obtain ⟨before, b, heq, hb, hlt, hle, -⟩ := h.exists_last
  obtain ⟨b', bs, heq', hb', hle', hlt'⟩ := h.exists_first
  generalize hlist : ([] : List UInt8) = none at h
  cases h with
  | @last cf b hb hle hlt hcl hnull =>
      have hlen := congrArg List.length hlist
      rw [bytes_length, List.length_nil] at hlen
      omega
  | @more cf b b' bs rest hb hle hlt hlink hrest =>
      have hlen := congrArg List.length hlist
      rw [List.length_append, bytes_length, List.length_nil] at hlen
      omega

/-! ## The first character -/

/-- What is left when the first character is removed. -/
inductive Rest (c_next : Nat → Nat) (c_info : Nat → UInt8) (c_cl cf : Nat) (blocks : List Nat)
    (rest : List UInt8) : Prop where
  /-- It was the only one. -/
  | empty : rest = [] → blocks = [block cf] → c_cl = cf + 1 → Rest c_next c_info c_cl cf blocks rest
  /-- It was the last one of its block. -/
  | next (bs : List Nat) : (cf + 1) % 32 = 0 → blocks = (cf + 1 - 32) :: bs →
      Chars c_next c_info c_cl (c_next (cf + 1 - 32) + 4) bs rest →
      c_next (cf + 1 - 32) % 32 = 0 → Rest c_next c_info c_cl cf blocks rest
  /-- There are others in its block. -/
  | same : (cf + 1) % 32 ≠ 0 → Chars c_next c_info c_cl (cf + 1) blocks rest →
      Rest c_next c_info c_cl cf blocks rest

theorem advance {c : UInt8} {rest : List UInt8}
    (h : Chars c_next c_info c_cl cf blocks (c :: rest)) :
    c = c_info cf ∧ Rest c_next c_info c_cl cf blocks rest := by
  generalize hcontent : c :: rest = content at h
  cases h with
  | @last _ b hb hle hlt hcl hnull =>
      obtain ⟨n, hn⟩ : ∃ n, c_cl - cf = n + 1 := ⟨c_cl - cf - 1, by omega⟩
      rw [hn, bytes] at hcontent
      obtain ⟨rfl, rfl⟩ := List.cons.inj hcontent
      refine ⟨rfl, ?_⟩
      cases n with
      | zero => exact .empty rfl (by rw [block_eq hb (by omega) (by omega)]) (by omega)
      | succ n =>
          have hrest : c_cl - (cf + 1) = n + 1 := by omega
          refine .same (by omega) ?_
          rw [← hrest]
          exact last hb (by omega) (by omega) hcl hnull
  | @more _ b b' bs others hb hle hlt hlink hothers =>
      obtain ⟨n, hn⟩ : ∃ n, b + 32 - cf = n + 1 := ⟨b + 32 - cf - 1, by omega⟩
      rw [hn, bytes, List.cons_append] at hcontent
      obtain ⟨rfl, rfl⟩ := List.cons.inj hcontent
      refine ⟨rfl, ?_⟩
      cases n with
      | zero =>
          have hb' : cf + 1 - 32 = b := by omega
          refine .next (b' :: bs) (by omega) (by rw [hb']) ?_ ?_
          · rw [hb', hlink]
            exact hothers
          · rw [hb', hlink]
            exact hothers.aligned b' List.mem_cons_self
      | succ n =>
          have hrest : b + 32 - (cf + 1) = n + 1 := by omega
          refine .same (by omega) ?_
          rw [← hrest]
          exact more hb (by omega) (by omega) hlink hothers

/-- The characters of the first block are contiguous. -/
theorem near (h : Chars c_next c_info c_cl cf blocks content) {n : Nat}
    (hblock : n ≤ 32 - cf % 32) (hlen : n ≤ content.length) :
    bytes c_info cf n = content.take n := by
  have htake : ∀ m, n ≤ m → bytes c_info cf n = (bytes c_info cf m).take n := by
    intro m hm
    obtain ⟨d, rfl⟩ : ∃ d, m = n + d := ⟨m - n, by omega⟩
    have hn : (bytes c_info cf n).length = n := bytes_length ..
    rw [bytes_add, List.take_append_of_le_length (Nat.le_of_eq hn.symm),
      List.take_of_length_le (Nat.le_of_eq hn)]
  cases h with
  | last hb hle hlt hcl hnull =>
      rw [bytes_length] at hlen
      exact htake _ hlen
  | @more _ b b' bs rest hb hle hlt hlink hrest =>
      have hroom : n ≤ b + 32 - cf := by omega
      rw [List.take_append_of_le_length (by rw [bytes_length]; exact hroom)]
      exact htake _ hroom

/-- What `ndflush` takes for the rest of the first block. -/
theorem rest_of_block (h : Chars c_next c_info c_cl cf blocks content) (hnodup : blocks.Nodup) :
    (if block cf = block (c_cl - 1) then c_cl else block cf + 32) - cf =
      min (32 - cf % 32) content.length := by
  cases h with
  | last hb hle hlt hcl hnull =>
      rw [block_eq hb (by omega) (by omega), block_eq hb (by omega) (by omega), if_pos rfl,
        bytes_length]
      omega
  | @more _ b b' bs rest hb hle hlt hlink hrest =>
      obtain ⟨before, b₁, heq, hb₁, hlt₁, hle₁, -⟩ := hrest.exists_last
      have hne : b ≠ b₁ := by
        rintro rfl
        exact (List.nodup_cons.mp hnodup).1 (by simp [heq])
      rw [block_eq hb (by omega) (by omega), block_eq hb₁ (by omega) (by omega), if_neg hne,
        List.length_append, bytes_length]
      omega

/-- The first character is not behind the last one. -/
theorem first_ne_end (h : Chars c_next c_info c_cl cf blocks content) (hnodup : blocks.Nodup) :
    cf ≠ c_cl := by
  cases h with
  | last hb hle hlt hcl hnull => omega
  | @more _ b b' bs rest hb hle hlt hlink hrest =>
      obtain ⟨before, b₁, heq, hb₁, hlt₁, hle₁, -⟩ := hrest.exists_last
      have hne : b ≠ b₁ := by
        rintro rfl
        exact (List.nodup_cons.mp hnodup).1 (by simp [heq])
      omega

theorem boundary_ne_end (h : Chars c_next c_info c_cl cf blocks content) {b : Nat}
    (hb : b % 32 = 0) (hnotin : b ∉ blocks) : b + 32 ≠ c_cl := by
  obtain ⟨before, b₁, heq, hb₁, hlt₁, hle₁, -⟩ := h.exists_last
  have hne : b ≠ b₁ := by
    rintro rfl
    exact hnotin (by simp [heq])
  omega

/-! ## Another character at the end -/

theorem single {b : Nat} (hb : b % 32 = 0) (hnull : c_next b = 0) :
    Chars c_next c_info (b + 5) (b + 4) [b] [c_info (b + 4)] := by
  have h : Chars c_next c_info (b + 5) (b + 4) [b] (bytes c_info (b + 4) (b + 5 - (b + 4))) :=
    last hb (by omega) (by omega) (by omega) hnull
  have hone : b + 5 - (b + 4) = 1 := by omega
  rw [hone] at h
  exact h

/-- There is room in the last block. -/
theorem snoc_same (h : Chars c_next c_info c_cl cf blocks content) (hnodup : blocks.Nodup)
    (hcl : c_cl % 32 ≠ 0) (c : UInt8) :
    Chars c_next (Function.update c_info c_cl c) (c_cl + 1) cf blocks (content ++ [c]) := by
  have hother : ∀ {a}, a ≠ c_cl → Function.update c_info c_cl c a = c_info a := fun hne =>
    Function.update_of_ne hne ..
  induction h with
  | @last cf b hb hle hlt hle' hnull =>
      have hsum : c_cl + 1 - cf = c_cl - cf + 1 := by omega
      have hnew : bytes (Function.update c_info c_cl c) cf (c_cl + 1 - cf) =
          bytes c_info cf (c_cl - cf) ++ [c] := by
        rw [hsum, bytes_add, bytes_congr fun a _ halt => hother (by omega)]
        congr 1
        have hend : cf + (c_cl - cf) = c_cl := by omega
        rw [hend, bytes, bytes, Function.update_self]
      rw [← hnew]
      exact last hb hle (by omega) (by omega) hnull
  | @more cf b b' bs rest hb hle hlt hlink hrest ih =>
      obtain ⟨hnotin, hnodup'⟩ := List.nodup_cons.mp hnodup
      obtain ⟨before, b₁, heq, hb₁, hlt₁, hle₁, -⟩ := hrest.exists_last
      have hne : b ≠ b₁ := by
        rintro rfl
        exact hnotin (by simp [heq])
      rw [List.append_assoc, ← bytes_congr fun a ha halt => hother (a := a) (by omega)]
      exact more hb hle hlt hlink (ih hnodup')

/-- The last block is full and another one is linked to it. -/
theorem snoc_next (h : Chars c_next c_info c_cl cf blocks content) (c_next' : Nat → Nat)
    (c_info' : Nat → UInt8) (hnodup : blocks.Nodup) (hcl : c_cl % 32 = 0) {b₂ : Nat} (hb₂ : b₂ % 32 = 0) (hlink : c_next' (c_cl - 32) = b₂)
    (hnull : c_next' b₂ = 0) (hnext : ∀ b ∈ blocks, b ≠ c_cl - 32 → c_next' b = c_next b)
    (hinfo : ∀ b ∈ blocks, ∀ a, b + 4 ≤ a → a < b + 32 → c_info' a = c_info a) :
    Chars c_next' c_info' (b₂ + 5) cf (blocks ++ [b₂]) (content ++ [c_info' (b₂ + 4)]) := by
  induction h with
  | @last cf b hb hle hlt hle' _ =>
      have hb' : c_cl - 32 = b := by omega
      have hend : c_cl - cf = b + 32 - cf := by omega
      rw [hend, ← bytes_congr fun a ha halt => hinfo b List.mem_cons_self a (by omega) (by omega)]
      exact more hb hle (by omega) (hb' ▸ hlink) (single hb₂ hnull)
  | @more cf b b' bs rest hb hle hlt hlink' hrest ih =>
      obtain ⟨hnotin, hnodup'⟩ := List.nodup_cons.mp hnodup
      obtain ⟨before, b₁, heq, hb₁, hlt₁, hle₁, -⟩ := hrest.exists_last
      have hne : b ≠ c_cl - 32 := by
        rintro rfl
        refine hnotin ?_
        rw [heq]
        have hb₁' : c_cl - 32 = b₁ := by omega
        simp [hb₁']
      rw [List.append_assoc,
        ← bytes_congr fun a ha halt => hinfo b List.mem_cons_self a (by omega) (by omega)]
      exact more hb hle hlt ((hnext b List.mem_cons_self hne).trans hlink')
        (ih hnodup' (fun b hmem => hnext b (List.mem_cons_of_mem _ hmem))
          fun b hmem => hinfo b (List.mem_cons_of_mem _ hmem))

/-! ## The last character -/

/-- What is left when the last character is removed. -/
inductive Init (c_next : Nat → Nat) (c_info : Nat → UInt8) (c_cl cf : Nat) (blocks : List Nat)
    (init : List UInt8) : Prop where
  /-- It was the only one. -/
  | empty : init = [] → blocks = [block (c_cl - 1)] → Init c_next c_info c_cl cf blocks init
  /-- It was the first one of its block. -/
  | previous (bs : List Nat) (b : Nat) : init ≠ [] → (c_cl - 1) % 32 = 4 →
      blocks = bs ++ [b, c_cl - 5] → c_next b = c_cl - 5 →
      (∀ c_next' : Nat → Nat, (∀ b' ∈ bs, c_next' b' = c_next b') → c_next' b = 0 →
        Chars c_next' c_info (b + 32) cf (bs ++ [b]) init) →
      Init c_next c_info c_cl cf blocks init
  /-- There are others before it in its block. -/
  | same : (c_cl - 1) % 32 ≠ 4 → Chars c_next c_info (c_cl - 1) cf blocks init →
      Init c_next c_info c_cl cf blocks init

theorem retreat (h : Chars c_next c_info c_cl cf blocks content) :
    content.getLast? = some (c_info (c_cl - 1)) ∧
      Init c_next c_info c_cl cf blocks content.dropLast := by
  induction h with
  | @last cf b hb hle hlt hcl hnull =>
      have hsum : c_cl - cf = c_cl - 1 - cf + 1 := by omega
      have hend : cf + (c_cl - 1 - cf) = c_cl - 1 := by omega
      have hsplit : bytes c_info cf (c_cl - cf) =
          bytes c_info cf (c_cl - 1 - cf) ++ [c_info (c_cl - 1)] := by
        rw [hsum, bytes_add, hend]
        rfl
      rw [hsplit, List.getLast?_concat, List.dropLast_concat]
      refine ⟨rfl, ?_⟩
      by_cases hone : c_cl - 1 = cf
      · refine .empty ?_ ?_
        · rw [hone, Nat.sub_self]
          rfl
        · rw [block_eq hb (by omega) (by omega)]
      · exact .same (by omega) (last hb hle (by omega) (by omega) hnull)
  | @more cf b b' bs rest hb hle hlt hlink hrest ih =>
      obtain ⟨hlast, hinit⟩ := ih
      have hne := hrest.content_ne_nil
      rw [List.getLast?_append_of_ne_nil _ hne, List.dropLast_append_of_ne_nil hne]
      refine ⟨hlast, ?_⟩
      obtain ⟨n, hn⟩ : ∃ n, b + 32 - cf = n + 1 := ⟨b + 32 - cf - 1, by omega⟩
      have hfirst : bytes c_info cf (b + 32 - cf) ≠ [] := by
        rw [hn, bytes]
        exact List.cons_ne_nil _ _
      have hnonempty : bytes c_info cf (b + 32 - cf) ++ rest.dropLast ≠ [] := fun hnil =>
        hfirst (List.append_eq_nil_iff.mp hnil).1
      cases hinit with
      | empty hnil hblocks =>
          -- the block after `b` had one character
          obtain ⟨hb', rfl⟩ := List.cons.inj hblocks
          obtain ⟨before, b₁, heq, hb₁, hlt₁, hle₁, -⟩ := hrest.exists_last
          have hb₁' : b₁ = b' := by
            cases before with
            | nil => exact (List.cons.inj heq).1.symm
            | cons _ before =>
                have hlen := congrArg List.length heq
                simp at hlen
          subst hb₁'
          have hgeometry := hrest.geometry
          have hlen : rest.length = 1 := by
            have := congrArg List.length hnil
            rw [List.length_dropLast, List.length_nil] at this
            have := List.length_pos_iff.mpr hne
            omega
          rw [hlen, List.length_singleton] at hgeometry
          have hcl : c_cl = b₁ + 5 := by omega
          subst hcl
          refine .previous [] b hnonempty (by omega) (by simp) (by omega) fun c_next' _ hnull => ?_
          rw [hnil, List.append_nil]
          exact last hb hle hlt (by omega) hnull
      | previous bs' b₁ _ hoffset hblocks hlast' hchars =>
          refine .previous (b :: bs') b₁ hnonempty hoffset (by rw [hblocks]; rfl) hlast'
            fun c_next' hnext hnull => ?_
          have hrest' := hchars c_next' (fun b hmem => hnext b (List.mem_cons_of_mem _ hmem)) hnull
          obtain ⟨bs₁, heq⟩ : ∃ bs₁, bs' ++ [b₁] = b' :: bs₁ := by
            cases bs' with
            | nil => exact ⟨[], by rw [(List.cons.inj hblocks).1]; rfl⟩
            | cons _ bs' => exact ⟨bs' ++ [b₁], by rw [(List.cons.inj hblocks).1]; rfl⟩
          rw [List.cons_append]
          rw [heq] at hrest' ⊢
          exact more hb hle hlt ((hnext b List.mem_cons_self).trans hlink) hrest'
      | same hoffset hrest' => exact .same hoffset (more hb hle hlt hlink hrest')

/-- The walk to the block before the last one. -/
theorem findPrevious_eq (h : Chars c_next c_info c_cl cf blocks content) (hnodup : blocks.Nodup)
    {bs : List Nat} {b b' : Nat} (hblocks : blocks = bs ++ [b, b']) {fuel : Nat}
    (hfuel : blocks.length ≤ fuel) : Pool.findPrevious c_next b' fuel (block cf) = some b := by
  induction h generalizing bs fuel with
  | @last cf b₁ hb hle hlt hcl hnull =>
      have := congrArg List.length hblocks
      simp at this
  | @more cf b₁ b₂ bs₂ rest hb hle hlt hlink hrest ih =>
      obtain ⟨fuel, rfl⟩ : ∃ n, fuel = n + 1 := ⟨fuel - 1, by
        simp only [List.length_cons] at hfuel
        omega⟩
      rw [Pool.findPrevious, block_eq hb (by omega) (by omega), hlink]
      cases bs with
      | nil =>
          obtain ⟨rfl, htail⟩ := List.cons.inj hblocks
          obtain ⟨rfl, -⟩ := List.cons.inj htail
          rw [if_pos rfl]
      | cons _ bs =>
          obtain ⟨rfl, htail⟩ := List.cons.inj hblocks
          obtain ⟨hnotin, hnodup'⟩ := List.nodup_cons.mp hnodup
          have hne : b₂ ≠ b' := by
            rintro rfl
            have hnodup₂ := hnodup'
            rw [htail] at hnodup₂
            cases bs with
            | nil =>
                obtain ⟨rfl, -⟩ := List.cons.inj htail
                simp at hnodup₂
            | cons _ bs =>
                obtain ⟨rfl, -⟩ := List.cons.inj htail
                simp at hnodup₂
          have hb₂ := hrest.aligned b₂ List.mem_cons_self
          have hlen : (b₂ :: bs₂).length ≤ fuel := by
            rw [List.length_cons] at hfuel
            omega
          have hrec := ih hnodup' htail hlen
          rw [block_eq hb₂ (by omega) (by omega)] at hrec
          rw [if_neg hne]
          exact hrec

end Chars

end DiscoBsd.Clists
