import Unikernel.Network.Sending

/-!
# Fragmentation is a partition

What `ipv4Send` puts on the wire, frame by frame. The frames are decoded with
the stack's own decoders, and `Partition` says of the packets they carry that
they are the payload, cut at block boundaries and numbered by blocks.

- `partition_last`, `partition_more`: one packet, and one packet in front.
- `Fragmented.partition`: the frames of a fragmented packet, by induction.
- `frames_partition`: the frames that are sent for a payload.
- `ipv4Send_partition` is the result for the sender.
-/

namespace Unikernel.Network

open Sml

variable {σ : Type}

/-- The packets carry the payload from byte `k` on, in order: each is numbered by
the blocks of eight bytes in front of it, all but the last are full blocks with
more to come, and all fit the MTU. -/
structure Partition (k : Nat) (payload : Str) (ds : List (IPv4.Header × Str)) : Prop where
  payloads : (ds.map Prod.snd).flatten = payload
  offsets : ∀ pre (d : IPv4.Header × Str) post, ds = pre ++ d :: post →
    d.1.fragmentOffset * 8 = k + (pre.map Prod.snd).flatten.length
  more : ∀ d ∈ ds.dropLast, d.1.flags = 1 ∧ 0 < d.2.length ∧ 8 ∣ d.2.length
  last : ∃ d, ds.getLast? = some d ∧ d.1.flags = 0
  lengths : ∀ d ∈ ds, d.1.totalLength = 20 + d.2.length ∧ d.1.totalLength ≤ 1500
  blocks : ∀ d ∈ ds, 0 ≤ d.1.fragmentOffset ∧ d.1.fragmentOffset < 8192

section

variable {k : Nat} {p payload : Str} {h : IPv4.Header} {ds : List (IPv4.Header × Str)}

/-- The last packet alone. -/
theorem partition_last (hoff : h.fragmentOffset * 8 = k) (hk : k < 65536) (hflags : h.flags = 0)
    (htotal : h.totalLength = 20 + p.length) (hp : p.length + 20 ≤ mtu) :
    Partition k p [(h, p)] where
  payloads := by simp
  offsets := by
    intro pre d post heq
    cases pre with
    | nil =>
      cases heq
      simpa using hoff
    | cons e pre => simp at heq
  more := by simp
  last := ⟨(h, p), rfl, hflags⟩
  lengths := by
    simp only [mtu] at hp
    simp only [List.mem_singleton, forall_eq]
    omega
  blocks := by
    simp only [List.mem_singleton, forall_eq]
    omega

/-- A full block in front of the packets of the rest. -/
theorem partition_more (hoff : h.fragmentOffset * 8 = k) (hk : k < 65536) (hflags : h.flags = 1)
    (htotal : h.totalLength = 20 + p.length) (hp : p.length = nfb * 8)
    (hds : Partition (k + p.length) payload ds) : Partition k (p ++ payload) ((h, p) :: ds) where
  payloads := by rw [List.map_cons, List.flatten_cons, hds.payloads]
  offsets := by
    intro pre d post heq
    cases pre with
    | nil =>
      cases heq
      simpa using hoff
    | cons e pre =>
      cases heq
      rw [hds.offsets pre d post rfl, List.map_cons, List.flatten_cons, List.length_append]
      push_cast
      omega
  more := by
    obtain ⟨d, hd, -⟩ := hds.last
    have hne : ds ≠ [] := by
      rintro rfl
      cases hd
    rw [List.dropLast_cons_of_ne_nil hne]
    refine List.forall_mem_cons.mpr ⟨⟨hflags, ?_⟩, hds.more⟩
    simp only [nfb, mtu] at hp
    simp only
    omega
  last := by
    obtain ⟨d, hd, hzero⟩ := hds.last
    exact ⟨d, by rw [List.getLast?_cons, hd]; rfl, hzero⟩
  lengths := by
    refine List.forall_mem_cons.mpr ⟨?_, hds.lengths⟩
    simp only [nfb, mtu] at hp
    simp only
    omega
  blocks := by
    refine List.forall_mem_cons.mpr ⟨?_, hds.blocks⟩
    simp only
    omega

end

/-- Where the last packet ends. -/
theorem Partition.total {k : Nat} {payload : Str} {ds : List (IPv4.Header × Str)}
    {d : IPv4.Header × Str} (hds : Partition k payload ds) (hd : ds.getLast? = some d) :
    d.1.fragmentOffset * 8 + d.2.length = k + payload.length := by
  obtain ⟨init, rfl⟩ := List.getLast?_eq_some_iff.mp hd
  have hoff := hds.offsets init d [] rfl
  have hpay := congrArg List.length hds.payloads
  simp only [List.map_append, List.flatten_append, List.length_append, List.map_cons,
    List.map_nil, List.flatten_cons, List.flatten_nil, List.append_nil] at hpay
  omega

/-- The packets in the frames of a fragmented packet are a partition of it. -/
theorem Fragmented.partition {X : PacketID} {k : Nat} {ps fs : List Str} {eh : Eth.Header}
    (hf : Fragmented X k ps fs) (hps : FullBlocks ps) (hk : k + ps.flatten.length < 65536)
    (hall : ∀ f ∈ fs, ∃ h p, Carries eh h p f) :
    ∃ ds : List (IPv4.Header × Str), fs.map decodeFrame = ds.map (fun d => .ok (eh, d)) ∧
      (∀ f ∈ fs, f.length ≤ 1514) ∧ Partition k ps.flatten ds := by
  induction hf with
  | @last k p f hf =>
    obtain ⟨h, hp, -, hoff, hflags⟩ := hf
    obtain ⟨h', p', hcar⟩ := hall f List.mem_cons_self
    obtain ⟨rfl, rfl⟩ := Prod.mk.inj (Except.ok.inj (hp.symm.trans hcar.packet))
    have hshort : p.length + 20 ≤ mtu := hps
    refine ⟨[(h, p)], by simp [hcar.frame], ?_, ?_⟩
    · intro g hg
      rw [List.mem_singleton.mp hg, hcar.length]
      simp only [mtu] at hshort
      omega
    · rw [List.flatten_cons, List.flatten_nil, List.append_nil]
      exact partition_last hoff (by omega) hflags hcar.totalLength hshort
  | @more k p f ps fs hf hfs ih =>
    obtain ⟨hblock, hps⟩ := (fullBlocks_cons hfs.ne_nil).mp hps
    rw [List.flatten_cons, List.length_append] at hk
    obtain ⟨h, hp, -, hoff, hflags⟩ := hf
    obtain ⟨⟨h', p', hcar⟩, hall⟩ := List.forall_mem_cons.mp hall
    obtain ⟨rfl, rfl⟩ := Prod.mk.inj (Except.ok.inj (hp.symm.trans hcar.packet))
    obtain ⟨ds, hds, hlen, hpart⟩ := ih hps (by omega) hall
    refine ⟨(h, p) :: ds, ?_, ?_, ?_⟩
    · rw [List.map_cons, List.map_cons, hds, hcar.frame]
    · refine List.forall_mem_cons.mpr ⟨?_, hlen⟩
      rw [hcar.length, hblock]
      decide
    · exact partition_more hoff (by omega) hflags hcar.totalLength hblock hpart

/-- The frames of a payload, whoever sends it. -/
theorem frames_partition (eh : Eth.Header) {base : IPv4.Header} {payload : Str}
    (hdst : IsBytes 6 eh.dstMac) (hsrc : IsBytes 6 eh.srcMac) (hbase : base.InRange)
    (hlen : payload.length ≤ 65535) :
    ∃ (out : List Str) (ds : List (IPv4.Header × Str)),
      fragmentFrames eh base 0 (cut payload) = .ok out ∧
      out.map decodeFrame = ds.map (fun d => .ok (eh, d)) ∧
      (∀ f ∈ out, f.length ≤ 1514) ∧ Partition 0 payload ds := by
  have hshort : 0 * 8 + (cut payload).flatten.length < 65536 := by
    rw [flatten_cut]
    omega
  obtain ⟨out, hout, hfrag, hall⟩ :=
    fragmentFrames_ok eh hdst hsrc hbase (fullBlocks_cut payload) 0 hshort
  rw [Nat.zero_mul] at hfrag hshort
  obtain ⟨ds, hds, hlen, hpart⟩ := hfrag.partition (fullBlocks_cut payload) hshort fun f hf => by
    obtain ⟨h, p, hcar, -⟩ := hall f hf
    exact ⟨h, p, hcar⟩
  rw [flatten_cut] at hpart
  exact ⟨out, ds, hout, hds, hlen, hpart⟩

/-- **Fragmentation**: sending succeeds and puts frames on the wire that decode to
a partition of the payload, addressed to the given MAC. -/
theorem ipv4Send_partition (args : SendArgs) (payload : Str) (s : Stack σ)
    (hident : 0 ≤ args.identification ∧ args.identification < 65536)
    (hprot : args.protocol ≠ .unknown) (hdest : IsBytes 4 args.destAddr)
    (hmac : IsBytes 6 args.dstMac) (hlen : payload.length ≤ 65535) :
    ∃ (out : List Str) (ds : List (IPv4.Header × Str)),
      ipv4Send args payload s = .ok () { s with sent := s.sent ++ out.map toByteList } ∧
      out.map decodeFrame = ds.map (fun d => .ok (⟨.ipv4, args.dstMac, mac⟩, d)) ∧
      (∀ f ∈ out, f.length ≤ 1514) ∧ Partition 0 payload ds := by
  have hbase := fragmentHeader_inRange hident hprot hdest
  obtain ⟨out, ds, hout, hds, hshort, hpart⟩ :=
    frames_partition ⟨.ipv4, args.dstMac, mac⟩ hmac isBytes_mac hbase hlen
  exact ⟨out, ds, sendFragments_eq hout s, hds, hshort, hpart⟩

/-- Three thousand bytes, in three frames. -/
theorem ipv4Send_partition_sample :
    ∃ (out : List Str) (ds : List (IPv4.Header × Str)),
      ipv4Send ⟨1, .udp, [10, 0, 0, 1], [2, 0, 0, 0, 0, 1]⟩ (List.replicate 3000 7)
          (Stack.init ()) =
        .ok () { Stack.init () with sent := [] ++ out.map toByteList } ∧
      out.map decodeFrame = ds.map (fun d => .ok (⟨.ipv4, [2, 0, 0, 0, 0, 1], mac⟩, d)) ∧
      (∀ f ∈ out, f.length ≤ 1514) ∧ Partition 0 (List.replicate 3000 7) ds :=
  ipv4Send_partition ⟨1, .udp, [10, 0, 0, 1], [2, 0, 0, 0, 0, 1]⟩ (List.replicate 3000 7)
    (Stack.init ()) ⟨by decide, by decide⟩ (by decide) ⟨rfl, by decide⟩ ⟨rfl, by decide⟩
    (by rw [List.length_replicate]; decide)

end Unikernel.Network
