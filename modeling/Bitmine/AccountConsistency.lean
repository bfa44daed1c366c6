import Bitmine.Lib.Trace
import Bitmine.PoolAccounts

namespace Bitmine.AccountConsistency

open Bitmine.Lib.UniqueTable Bitmine.Lib.GroupSum Bitmine.Lib.Throwing Bitmine.Lib.Trace
open Bitmine.Schema Bitmine.Security Bitmine.PoolAccounts

variable {prim : Primitives}

/-- What the endpoints of one pool account have in common. -/
structure Agrees (prim : Primitives) (u v : Endpoint) : Prop where
  protocol : u.protocol = v.protocol
  receiveAddress : u.receiveAddress = v.receiveAddress
  usernameTemplate : u.usernameTemplate = v.usernameTemplate
  password : password prim u = password prim v

theorem Agrees.refl (u : Endpoint) : Agrees prim u u := ⟨rfl, rfl, rfl, rfl⟩

theorem Agrees.symm {u v : Endpoint} (h : Agrees prim u v) : Agrees prim v u :=
  ⟨h.protocol.symm, h.receiveAddress.symm, h.usernameTemplate.symm, h.password.symm⟩

theorem Agrees.trans {u v w : Endpoint} (h : Agrees prim u v) (h' : Agrees prim v w) :
    Agrees prim u w :=
  ⟨h.protocol.trans h'.protocol, h.receiveAddress.trans h'.receiveAddress,
    h.usernameTemplate.trans h'.usernameTemplate, h.password.trans h'.password⟩

def SameAccount (u v : Endpoint) : Prop := u.asset = v.asset ∧ u.accountKey = v.accountKey

instance (u v : Endpoint) : Decidable (SameAccount u v) := inferInstanceAs (Decidable (_ ∧ _))

def Consistent (prim : Primitives) (t : Table Endpoint) : Prop :=
  ∀ u ∈ t.rows, ∀ v ∈ t.rows, SameAccount u v → Agrees prim u v

/-- With the consistency of accounts: the protocol goes with the asset, and a
stored password opens and is not empty. -/
structure Sound (prim : Primitives) (t : Table Endpoint) : Prop where
  consistent : Consistent prim t
  protocol : ∀ u ∈ t.rows, protocolMatches u.asset u.protocol = true
  stored : ∀ u ∈ t.rows, (truthy u.passwordCiphertext).isSome = true →
    ∃ p, p ≠ "" ∧ password prim u = .ok p

/-- A drawn identifier is not the name of an account yet. -/
def FreshId (t : Table Endpoint) : Request → Prop
  | .create env dto => dto.accountKey = none → ∀ u ∈ t.rows, u.accountKey ≠ toString env.id
  | .update _ _ _ => True

theorem refuse_ok {condition : Bool} {message : String} {x : Unit} :
    refuse condition message = .ok x ↔ condition = false := by
  cases condition <;> simp [refuse]

theorem protocol_unique {asset : AssetCode} {p q : PoolProtocol}
    (hp : protocolMatches asset p = true) (hq : protocolMatches asset q = true) : p = q := by
  cases asset <;> cases p <;> cases q <;> simp_all [protocolMatches]

theorem checkIndexes_ok {t t' : Table Endpoint} (h : checkIndexes t = .ok t') : t' = t := by
  rw [checkIndexes] at h
  split at h <;> cases h
  rfl

theorem inAccount_iff {asset : AssetCode} {accountKey : String} {u : Endpoint} :
    inAccount asset accountKey u = true ↔ u.asset = asset ∧ u.accountKey = accountKey := by
  simp [inAccount]

theorem truthy_eq_some {o : Option String} {s : String} (h : truthy o = some s) :
    o = some s ∧ s ≠ "" := by
  unfold truthy at h
  split at h
  · split at h
    · cases h
    · rename_i hne
      cases h
      exact ⟨rfl, hne⟩
  · cases h

section Passwords

variable (H : Authentic prim)
include H

theorem password_sealed {u : Endpoint} (env : Draw) {p : Option String}
    (h : u.passwordCiphertext = sealPassword prim env u.id p) :
    password prim u = .ok ((truthy p).getD "x") ∧
      ((truthy u.passwordCiphertext).isSome = true → (truthy p).getD "x" ≠ "") := by
  rw [PoolAccounts.password, h, sealPassword]
  cases hp : truthy p with
  | none => exact ⟨rfl, fun hn => (by cases hn)⟩
  | some p =>
    have hne := (truthy_eq_some hp).2
    rw [Option.map_some, truthy_some (encrypt_ne_empty _ _ _)]
    exact ⟨decrypt_encrypt H (env.undotted u.id) hne, fun _ => hne⟩

theorem joinPeer_ok {env : Draw} {dto : CreateUpstream} {peer : Endpoint} {c : Option String}
    (hs : (truthy peer.passwordCiphertext).isSome = true →
      ∃ p, p ≠ "" ∧ password prim peer = .ok p) (h : joinPeer prim env dto peer = .ok c) :
    Agrees prim peer (newEndpoint env dto c) ∧
      ((truthy c).isSome = true → ∃ p, p ≠ "" ∧ password prim (newEndpoint env dto c) = .ok p) := by
  simp only [joinPeer, bind_eq_ok, refuse_ok, pure_eq_ok, decide_eq_false_iff_not, not_not] at h
  obtain ⟨_, hproto, _, haddr, _, htempl, p, hp, _, _, rfl⟩ := h
  have hpass : password prim (newEndpoint env dto (if (truthy peer.passwordCiphertext).isSome = true
      then some (encrypt prim (env.iv env.id) p (passwordContext env.id)) else none)) = .ok p := by
    split
    · rename_i hc
      obtain ⟨p', hne, hp'⟩ := hs hc
      rw [hp] at hp'
      cases hp'
      rw [PoolAccounts.password, newEndpoint, truthy_some (encrypt_ne_empty _ _ _)]
      exact decrypt_encrypt H (env.undotted env.id) hne
    · rename_i hc
      -- a peer without a stored password has the default one
      rw [PoolAccounts.password, Option.not_isSome_iff_eq_none.mp hc] at hp
      exact hp
  refine ⟨⟨hproto, haddr, htempl, by rw [hpass, hp]⟩, fun hc => ⟨p, ?_, hpass⟩⟩
  split at hc
  · rename_i hc'
    obtain ⟨p', hne, hp'⟩ := hs hc'
    rw [hp] at hp'
    cases hp'
    exact hne
  · cases hc

end Passwords

/-- What a successful creation adds to the table: a row that agrees with a peer
or opens an account of its own. -/
structure Created (prim : Primitives) (env : Draw) (t : Table Endpoint) (dto : CreateUpstream)
    (t' : Table Endpoint) (c : Option String) : Prop where
  rows : t'.rows = t.rows ++ [newEndpoint env dto c]
  newId : ∀ u ∈ t.rows, u.id ≠ env.id
  protocol : protocolMatches dto.asset dto.protocol = true
  account : (∃ peer ∈ t.rows, SameAccount peer (newEndpoint env dto c) ∧
    Agrees prim peer (newEndpoint env dto c)) ∨
    ∀ u ∈ t.rows, ¬ SameAccount u (newEndpoint env dto c)
  stored : (truthy c).isSome = true →
    ∃ p, p ≠ "" ∧ password prim (newEndpoint env dto c) = .ok p

theorem create_ok (H : Authentic prim) {env : Draw} {t t' : Table Endpoint} {dto : CreateUpstream}
    (hs : Sound prim t) (hf : FreshId t (.create env dto)) (h : create prim env t dto = .ok t') :
    ∃ c, Created prim env t dto t' c := by
  simp only [create, bind_eq_ok, refuse_ok, orThrow_eq_ok] at h
  obtain ⟨_, hproto, _, _, c, hc, t₁, hi, hidx⟩ := h
  cases checkIndexes_ok hidx
  obtain ⟨hrows, hnew⟩ := Table.insert_eq_some hi
  have hproto' : protocolMatches dto.asset dto.protocol = true := by simpa using hproto
  have hids : ∀ u ∈ t.rows, u.id ≠ env.id := fun u hu he => hnew u hu (.inl he)
  rw [newPassword] at hc
  split at hc
  · rename_i peer hpeer
    rw [findPeer] at hpeer
    split at hpeer
    · have hmem : peer ∈ t.rows := (env.order.perm t.rows).mem_iff.mp (List.mem_of_find?_eq_some hpeer)
      have hacc : inAccount dto.asset (accountKeyOf env dto) peer = true := List.find?_some hpeer
      obtain ⟨hagree, hstored⟩ := joinPeer_ok H (hs.stored peer hmem) hc
      exact ⟨c, hrows, hids, hproto', .inl ⟨peer, hmem, inAccount_iff.mp hacc, hagree⟩,
        hstored⟩
    · cases hpeer
  · rename_i hpeer
    cases hc
    have hseal := password_sealed H env (p := dto.password)
      (u := newEndpoint env dto (sealPassword prim env env.id dto.password)) rfl
    refine ⟨_, hrows, hids, hproto', .inr ?_, fun hc => ⟨_, hseal.2 hc, hseal.1⟩⟩
    intro u hu hsame
    rw [findPeer] at hpeer
    split at hpeer
    · have hnone := List.find?_eq_none.mp hpeer u ((env.order.perm t.rows).mem_iff.mpr hu)
      exact hnone (inAccount_iff.mpr hsame)
    · rename_i hkey
      have hnone : dto.accountKey = none := Option.not_isSome_iff_eq_none.mp hkey
      refine hf hnone u hu (hsame.2.trans ?_)
      simp [newEndpoint, accountKeyOf, hnone]

theorem Created.sound {env : Draw} {t t' : Table Endpoint} {dto : CreateUpstream}
    {c : Option String} (hs : Sound prim t) (h : Created prim env t dto t' c) : Sound prim t' := by
  have hmem : ∀ {u}, u ∈ t'.rows → u ∈ t.rows ∨ u = newEndpoint env dto c := by
    intro u hu
    rw [h.rows, List.mem_append, List.mem_singleton] at hu
    exact hu
  have hnew : ∀ u ∈ t.rows, SameAccount u (newEndpoint env dto c) →
      Agrees prim u (newEndpoint env dto c) := by
    intro u hu hsame
    obtain ⟨peer, hpeer, hacc, hagree⟩ | hnone := h.account
    · have hup : SameAccount u peer := ⟨hsame.1.trans hacc.1.symm, hsame.2.trans hacc.2.symm⟩
      exact (hs.consistent u hu peer hpeer hup).trans hagree
    · exact absurd hsame (hnone u hu)
  refine ⟨fun u hu v hv hsame => ?_, fun u hu => ?_, fun u hu => ?_⟩
  · obtain hu | rfl := hmem hu <;> obtain hv | rfl := hmem hv
    · exact hs.consistent u hu v hv hsame
    · exact hnew u hu hsame
    · exact (hnew v hv ⟨hsame.1.symm, hsame.2.symm⟩).symm
    · exact .refl _
  · obtain hu | rfl := hmem hu
    · exact hs.protocol u hu
    · exact h.protocol
  · obtain hu | rfl := hmem hu
    · exact hs.stored u hu
    · exact h.stored

section Update

variable {env : Draw} {dto : UpdateUpstream} {t t' : Table Endpoint} {before u v : Endpoint} {id : Id}

def rewrite (prim : Primitives) (env : Draw) (dto : UpdateUpstream) (before u : Endpoint) :
    Endpoint :=
  if u.id = before.id then editOwn prim env dto u
  else if joiningExistingAccount dto before = false ∧ SameAccount u before then
    editShared prim env dto u
  else u

structure Updated (prim : Primitives) (env : Draw) (t : Table Endpoint) (id : Id)
    (dto : UpdateUpstream) (before : Endpoint) (t' : Table Endpoint) : Prop where
  found : before ∈ t.rows
  id : before.id = id
  rows : t'.rows = t.rows.map (rewrite prim env dto before)
  suits : joiningExistingAccount dto before = true → ∀ u ∈ peersOf dto t before,
    u.receiveAddress = nextAddress dto before ∧ u.usernameTemplate = nextTemplate dto before ∧
      password prim u = nextPassword prim dto before

theorem anyM_ok {f : Endpoint → Except String Bool} {l : List Endpoint}
    (h : l.anyM f = .ok false) : ∀ u ∈ l, f u = .ok false := by
  induction l with
  | nil => simp
  | cons u l ih =>
    simp only [List.anyM, bind_eq_ok] at h
    obtain ⟨b, hb, h⟩ := h
    cases b with
    | true => cases h
    | false =>
      intro v hv
      obtain rfl | hv := List.mem_cons.mp hv
      · exact hb
      · exact ih h v hv

theorem checkPeers_ok {peers : List Endpoint} {x : Unit}
    (h : checkPeers prim dto before peers = .ok x) (hj : joiningExistingAccount dto before = true)
    (hu : u ∈ peers) : u.receiveAddress = nextAddress dto before ∧
      u.usernameTemplate = nextTemplate dto before ∧
      password prim u = nextPassword prim dto before := by
  simp only [checkPeers, hj, Bool.true_and, bind_eq_ok, refuse_ok, List.any_eq_false, if_true,
    decide_eq_true_eq, ne_eq, not_not] at h
  obtain ⟨_, haddr, _, htempl, next, hnext, differs, hany, rfl⟩ := h
  refine ⟨haddr u hu, htempl u hu, ?_⟩
  obtain ⟨p, hp, he⟩ := bind_eq_ok.mp (anyM_ok hany u hu)
  have hpn : p = next := by simpa using pure_eq_ok.mp he
  rw [hp, hpn, hnext]

theorem mem_peersOf : u ∈ peersOf dto t before ↔
    u ∈ t.rows ∧ (u.asset = before.asset ∧ u.accountKey = nextAccountKey dto before) ∧
      u.id ≠ before.id := by
  simp only [peersOf, List.mem_filter, decide_eq_true_eq, inAccount_iff]

theorem not_joining (h : joiningExistingAccount dto before = false) :
    nextAccountKey dto before = before.accountKey := by
  simpa [joiningExistingAccount] using h

theorem writeUpdate_ok (h : writeUpdate prim env dto t before (peersOf dto t before) = .ok t') :
    t'.rows = t.rows.map (rewrite prim env dto before) := by
  simp only [writeUpdate, bind_eq_ok] at h
  obtain ⟨t₁, hidx, h⟩ := h
  cases checkIndexes_ok hidx
  split at h
  · rename_i hj
    cases h
    simp only [Table.update_rows, decide_eq_true_eq]
    refine List.map_congr_left (fun u _ => ?_)
    simp only [rewrite, hj, Bool.true_eq_false, false_and, if_false]
  · rename_i hj
    cases h
    have hj' := Bool.eq_false_iff.mpr hj
    simp only [Table.update_rows, decide_eq_true_eq, List.map_map]
    refine List.map_congr_left (fun u hu => ?_)
    have hpeers : ∀ i, (peersOf dto t before).any (fun p => p.id = i) = true ↔
        ∃ p ∈ peersOf dto t before, p.id = i := by simp
    simp only [Function.comp_apply, rewrite, hj', true_and]
    by_cases hid : u.id = before.id
    · -- the endpoint is not among its own peers
      rw [if_pos hid, if_pos hid, if_neg]
      rw [hpeers]
      rintro ⟨p, hp, he⟩
      exact (mem_peersOf.mp hp).2.2 (he.trans hid)
    · rw [if_neg hid, if_neg hid]
      by_cases hacc : SameAccount u before
      · rw [if_pos hacc, if_pos]
        rw [hpeers]
        exact ⟨u, mem_peersOf.mpr ⟨hu, ⟨hacc.1, hacc.2.trans (not_joining hj').symm⟩, hid⟩, rfl⟩
      · rw [if_neg hacc, if_neg]
        rw [hpeers]
        rintro ⟨p, hp, he⟩
        obtain ⟨hm, hp, _⟩ := mem_peersOf.mp hp
        rw [t.eq_of_id hm hu he] at hp
        exact hacc ⟨hp.1, hp.2.trans (not_joining hj')⟩

theorem update_ok (h : update prim env dto t id = .ok t') :
    ∃ before, Updated prim env t id dto before t' := by
  simp only [update, bind_eq_ok, orThrow_eq_ok] at h
  obtain ⟨before, hfind, _, _, _, hcheck, hwrite⟩ := h
  obtain ⟨hm, hid⟩ := Table.find?_mem hfind
  exact ⟨before, hm, of_decide_eq_true hid, writeUpdate_ok hwrite,
    fun hj u hu => checkPeers_ok hcheck hj hu⟩

theorem rewrite_columns (prim : Primitives) (env : Draw) (dto : UpdateUpstream)
    (before u : Endpoint) : (rewrite prim env dto before u).id = u.id ∧
    (rewrite prim env dto before u).asset = u.asset ∧
    (rewrite prim env dto before u).protocol = u.protocol := by
  rw [rewrite]
  split
  · exact ⟨rfl, rfl, rfl⟩
  · split <;> exact ⟨rfl, rfl, rfl⟩

theorem password_edit (H : Authentic prim) :
    password prim (editShared prim env dto u) = nextPassword prim dto u := by
  rw [nextPassword]
  cases hp : dto.password with
  | some p => exact (password_sealed H env (by simp only [editShared, hp])).1
  | none => simp only [PoolAccounts.password, editShared, hp]

theorem stored_edit (H : Authentic prim) (env : Draw) (dto : UpdateUpstream)
    (h : (truthy u.passwordCiphertext).isSome = true → ∃ p, p ≠ "" ∧ password prim u = .ok p)
    (hc : (truthy (editShared prim env dto u).passwordCiphertext).isSome = true) :
    ∃ p, p ≠ "" ∧ password prim (editShared prim env dto u) = .ok p := by
  cases hp : dto.password with
  | some p =>
    obtain ⟨hpass, hne⟩ := password_sealed H env (u := editShared prim env dto u) (p := p)
      (by simp only [editShared, hp])
    exact ⟨_, hne hc, hpass⟩
  | none =>
    simp only [editShared, hp] at hc
    obtain ⟨p, hne, hpass⟩ := h hc
    exact ⟨p, hne, by rw [password_edit H, nextPassword, hp, hpass]⟩

theorem agrees_edit (H : Authentic prim) (h : Agrees prim u v) :
    Agrees prim (editShared prim env dto u) (editShared prim env dto v) := by
  refine ⟨h.protocol, ?_, ?_, ?_⟩
  · simp only [editShared, h.receiveAddress]
  · simp only [editShared, h.usernameTemplate]
  · rw [password_edit H, password_edit H, nextPassword, nextPassword, h.password]

theorem agrees_own : Agrees prim (editOwn prim env dto u) (editShared prim env dto u) :=
  ⟨rfl, rfl, rfl, rfl⟩

theorem Updated.eq_before (h : Updated prim env t id dto before t') (hu : u ∈ t.rows)
    (hid : u.id = before.id) : u = before := t.eq_of_id hu h.found hid

theorem Updated.agrees_moved (H : Authentic prim) (hs : Sound prim t)
    (h : Updated prim env t id dto before t') (hj : joiningExistingAccount dto before = true)
    (hv : v ∈ t.rows) (hne : v.id ≠ before.id)
    (hsame : SameAccount (editOwn prim env dto before) v) :
    Agrees prim (editOwn prim env dto before) v := by
  obtain ⟨haddr, htempl, hpass⟩ := h.suits hj v
    (mem_peersOf.mpr ⟨hv, ⟨hsame.1.symm, hsame.2.symm⟩, hne⟩)
  refine ⟨protocol_unique (hs.protocol before h.found) ?_, haddr.symm, htempl.symm, ?_⟩
  · have hasset : before.asset = v.asset := hsame.1
    rw [hasset]
    exact hs.protocol v hv
  · rw [hpass]
    exact password_edit H

theorem rewrite_staying (prim : Primitives) (env : Draw)
    (hj : joiningExistingAccount dto before = false) (hm : before ∈ t.rows)
    (hu : u ∈ t.rows) : (rewrite prim env dto before u).accountKey = u.accountKey ∧
      (SameAccount u before → Agrees prim (rewrite prim env dto before u) (editShared prim env dto u)) ∧
      (¬ SameAccount u before → rewrite prim env dto before u = u) := by
  rw [rewrite]
  by_cases hid : u.id = before.id
  · rw [if_pos hid, t.eq_of_id hu hm hid]
    exact ⟨not_joining hj, fun _ => agrees_own, fun hn => absurd ⟨rfl, rfl⟩ hn⟩
  · rw [if_neg hid]
    by_cases hacc : SameAccount u before
    · rw [if_pos ⟨hj, hacc⟩]
      exact ⟨rfl, fun _ => .refl _, fun hn => absurd hacc hn⟩
    · rw [if_neg (fun h => hacc h.2)]
      exact ⟨rfl, fun h => absurd h hacc, fun _ => rfl⟩

theorem rewrite_joining (hj : joiningExistingAccount dto before = true) (hid : u.id ≠ before.id) :
    rewrite prim env dto before u = u := by
  rw [rewrite]
  rw [if_neg hid, if_neg (by simp [hj])]

theorem Updated.consistent (H : Authentic prim) (hs : Sound prim t)
    (h : Updated prim env t id dto before t') (hu : u ∈ t.rows) (hv : v ∈ t.rows)
    (hsame : SameAccount (rewrite prim env dto before u) (rewrite prim env dto before v)) :
    Agrees prim (rewrite prim env dto before u) (rewrite prim env dto before v) := by
  cases hj : joiningExistingAccount dto before with
  | true =>
    by_cases hui : u.id = before.id <;> by_cases hvi : v.id = before.id
    · rw [t.eq_of_id hu hv (hui.trans hvi.symm)]
      exact .refl _
    · rw [rewrite_joining hj hvi, rewrite, if_pos hui, h.eq_before hu hui] at hsame ⊢
      exact h.agrees_moved H hs hj hv hvi hsame
    · rw [rewrite_joining hj hui, rewrite, if_pos hvi, h.eq_before hv hvi] at hsame ⊢
      exact (h.agrees_moved H hs hj hu hui ⟨hsame.1.symm, hsame.2.symm⟩).symm
    · rw [rewrite_joining hj hui, rewrite_joining hj hvi] at hsame ⊢
      exact hs.consistent u hu v hv hsame
  | false =>
    obtain ⟨hku, hinu, houtu⟩ := rewrite_staying prim env hj h.found hu
    obtain ⟨hkv, hinv, houtv⟩ := rewrite_staying prim env hj h.found hv
    have huv : SameAccount u v := by
      refine ⟨?_, hku ▸ hkv ▸ hsame.2⟩
      rw [← (rewrite_columns prim env dto before u).2.1, ← (rewrite_columns prim env dto before v).2.1]
      exact hsame.1
    have hagree := hs.consistent u hu v hv huv
    by_cases hacc : SameAccount u before
    · have hacc' : SameAccount v before := ⟨huv.1.symm.trans hacc.1, huv.2.symm.trans hacc.2⟩
      exact ((hinu hacc).trans (agrees_edit H hagree)).trans (hinv hacc').symm
    · have hacc' : ¬ SameAccount v before :=
        fun h' => hacc ⟨huv.1.trans h'.1, huv.2.trans h'.2⟩
      rw [houtu hacc, houtv hacc']
      exact hagree

theorem Updated.sound (H : Authentic prim) (hs : Sound prim t)
    (h : Updated prim env t id dto before t') : Sound prim t' := by
  have hmem : ∀ {u}, u ∈ t'.rows → ∃ v ∈ t.rows, rewrite prim env dto before v = u := by
    intro u hu
    rw [h.rows] at hu
    exact List.mem_map.mp hu
  refine ⟨fun u' hu' v' hv' hsame => ?_, fun u' hu' => ?_, fun u' hu' hc => ?_⟩
  · obtain ⟨u, hu, rfl⟩ := hmem hu'
    obtain ⟨v, hv, rfl⟩ := hmem hv'
    exact h.consistent H hs hu hv hsame
  · obtain ⟨u, hu, rfl⟩ := hmem hu'
    obtain ⟨_, hasset, hproto⟩ := rewrite_columns prim env dto before u
    rw [hasset, hproto]
    exact hs.protocol u hu
  · obtain ⟨u, hu, rfl⟩ := hmem hu'
    have hst := hs.stored u hu
    unfold rewrite at hc ⊢
    split
    · rename_i hid
      rw [if_pos hid] at hc
      obtain ⟨p, hne, hp⟩ := stored_edit H env dto hst hc
      exact ⟨p, hne, hp⟩
    · rename_i hid
      rw [if_neg hid] at hc
      split
      · rename_i hacc
        rw [if_pos hacc] at hc
        exact stored_edit H env dto hst hc
      · rename_i hacc
        rw [if_neg hacc] at hc
        exact hst hc

end Update

theorem perform_sound (H : Authentic prim) {t : Table Endpoint} {q : Request} (hs : Sound prim t)
    (hf : FreshId t q) : Sound prim (perform prim t q) := by
  rw [perform]
  split
  · rename_i t' ht
    cases q with
    | create env dto =>
      obtain ⟨c, hc⟩ := create_ok H hs hf ht
      exact hc.sound hs
    | update env id dto =>
      obtain ⟨before, hu⟩ := update_ok ht
      exact hu.sound H hs
  · exact hs

theorem empty_sound : Sound prim .empty := ⟨by simp [Consistent], by simp, by simp⟩

theorem reachable_sound (H : Authentic prim) {ok : Table Endpoint → Request → Prop}
    (hok : ∀ t q, ok t q → FreshId t q) {t : Table Endpoint}
    (h : Reach (perform prim) ok .empty t) : Sound prim t :=
  h.invariant (fun _ _ hs hq => perform_sound H hs (hok _ _ hq)) empty_sound

/-- After every sequence of calls the endpoints of one pool account have the
same protocol, receive address, username template and effective password. -/
theorem accounts_consistent (H : Authentic prim) {t : Table Endpoint}
    (h : Reach (perform prim) FreshId .empty t) {u v : Endpoint}
    (hu : u ∈ t.rows) (hv : v ∈ t.rows) (hasset : u.asset = v.asset)
    (hkey : u.accountKey = v.accountKey) :
    u.protocol = v.protocol ∧ u.receiveAddress = v.receiveAddress ∧
      u.usernameTemplate = v.usernameTemplate ∧ password prim u = password prim v := by
  have hs := reachable_sound H (fun _ _ hq => hq) h
  obtain ⟨hproto, haddr, htempl, hpass⟩ := hs.consistent u hu v hv ⟨hasset, hkey⟩
  exact ⟨hproto, haddr, htempl, hpass⟩

section Sample

def escape : List Char → List Char
  | [] => []
  | c :: cs => (if c = '.' then ['_', 'd'] else if c = '_' then ['_', 'u'] else [c]) ++ escape cs

def unescape : List Char → List Char
  | '_' :: 'd' :: cs => '.' :: unescape cs
  | '_' :: 'u' :: cs => '_' :: unescape cs
  | c :: cs => c :: unescape cs
  | [] => []

theorem unescape_escape (cs : List Char) : unescape (escape cs) = cs := by
  induction cs with
  | nil => rfl
  | cons c cs ih =>
    by_cases hd : c = '.'
    · simp [escape, hd, unescape, ih]
    · by_cases hu : c = '_'
      · simp [escape, hu, unescape, ih]
      · simp [escape, hd, hu, unescape, ih]

theorem dot_not_mem_escape (cs : List Char) : '.' ∉ escape cs := by
  induction cs with
  | nil => simp [escape]
  | cons c cs ih =>
    by_cases hd : c = '.'
    · simp [escape, hd, ih]
    · by_cases hu : c = '_'
      · simp [escape, hu, ih]
      · simp [escape, hd, hu, ih, Ne.symm hd]

def samplePrimitives : Primitives :=
  ⟨fun _ _ plaintext => ("tag", String.ofList (escape plaintext.toList)),
    fun _ _ ciphertext _ => some (String.ofList (unescape ciphertext.toList)), fun _ _ => []⟩

theorem samplePrimitives_authentic : Authentic samplePrimitives where
  opens iv context plaintext := by simp [samplePrimitives, unescape_escape]
  tag iv context plaintext := ⟨(by decide : "tag" ≠ ""), (by decide : '.' ∉ "tag".toList)⟩
  ciphertext iv context plaintext h := by
    constructor
    · intro he
      have hl := congrArg (fun s => unescape s.toList) he
      simp only [samplePrimitives, String.toList_ofList, unescape_escape] at hl
      exact h (String.toList_inj.mp (by simpa [unescape] using hl))
    · simp only [samplePrimitives, String.toList_ofList]
      exact dot_not_mem_escape _

def sampleDraw (id : Id) : Draw :=
  ⟨id, fun _ => "iv", fun _ => ⟨by decide, by decide⟩, fun _ _ => true, .asStored⟩

def sampleEndpoint (accountKey : AccountKey) (name host : String) (password : Option String)
    (receiveAddress : String) : CreateUpstream :=
  ⟨some accountKey, .btc, .bitcoinStratumV1, name, host, 3333, false, 100, "service", password,
    some receiveAddress⟩

def poolA : AccountKey := ⟨"pool-a", by decide⟩
def poolB : AccountKey := ⟨"pool-b", by decide⟩

def namesAccount (_ : Table Endpoint) : Request → Bool
  | .create _ dto => dto.accountKey.isSome
  | .update _ _ _ => true

theorem namesAccount_sound (t : Table Endpoint) (q : Request) (h : namesAccount t q = true) :
    FreshId t q := by
  cases q with
  | create env dto =>
    intro hn
    rw [namesAccount, hn] at h
    cases h
  | update env id dto => trivial

def sampleRequests : List Request :=
  [.create (sampleDraw 1) (sampleEndpoint poolA "one" "a.example" none "address"),
    .create (sampleDraw 2) (sampleEndpoint poolA "two" "b.example" (some "x") "address"),
    .update (sampleDraw 0) 2 { password := some (some "secret") },
    .create (sampleDraw 3) (sampleEndpoint poolA "three" "c.example" none "address")]

theorem accounts_consistent_sample : ∃ t : Table Endpoint,
    Reach (perform samplePrimitives) FreshId .empty t ∧
    t.rows.map (fun u => (u.id, u.asset, u.accountKey)) =
      [(1, .btc, "pool-a"), (2, .btc, "pool-a")] ∧
    t.rows.map (fun u => (password samplePrimitives u).toOption) = [some "secret", some "secret"] ∧
    ∀ u ∈ t.rows, ∀ v ∈ t.rows, password samplePrimitives u = password samplePrimitives v := by
  have hreplay : (replay (perform samplePrimitives) namesAccount .empty sampleRequests).map (fun t =>
      (t.rows.map (fun u => (u.id, u.asset, u.accountKey)),
        t.rows.map (fun u => (password samplePrimitives u).toOption))) =
      some ([(1, .btc, "pool-a"), (2, .btc, "pool-a")], [some "secret", some "secret"]) := by
    decide +kernel
  obtain ⟨t, ht, hv⟩ := Option.map_eq_some_iff.mp hreplay
  obtain ⟨hrows, hpass⟩ := Prod.mk.inj hv
  have hrun := replay_reach namesAccount_sound ht
  have haccount : ∀ u ∈ t.rows, u.asset = .btc ∧ u.accountKey = "pool-a" := by
    intro u hu
    have hm := List.mem_map_of_mem (f := fun u => (u.id, u.asset, u.accountKey)) hu
    rw [hrows] at hm
    simp only [List.mem_cons, List.not_mem_nil, or_false, Prod.mk.injEq] at hm
    obtain ⟨_, h⟩ | ⟨_, h⟩ := hm <;> exact h
  refine ⟨t, hrun, hrows, hpass, fun u hu v hv => ?_⟩
  obtain ⟨hasset, hkey⟩ := haccount u hu
  obtain ⟨hasset', hkey'⟩ := haccount v hv
  exact (accounts_consistent samplePrimitives_authentic hrun hu hv (hasset.trans hasset'.symm)
    (hkey.trans hkey'.symm)).2.2.2

end Sample

end Bitmine.AccountConsistency
