import DocComment.Text.Basic

/-!
# Upper case

The Unicode property Uppercase, version 17, as a table of runs.  A run holds its
first and last code point and the step between its members: letters that come
in pairs of an upper and a lower case form make runs of step two.
-/

namespace DocComment

/-- The runs of code points with the Unicode property Uppercase. -/
def uppercaseRuns : List (Nat × Nat × Nat) :=
  [
    (0x0041, 0x005a, 1), (0x00c0, 0x00d6, 1), (0x00d8, 0x00de, 1), (0x0100, 0x0136, 2),
    (0x0139, 0x0147, 2), (0x014a, 0x0178, 2), (0x0179, 0x017d, 2), (0x0181, 0x0182, 1),
    (0x0184, 0x0184, 1), (0x0186, 0x0187, 1), (0x0189, 0x018b, 1), (0x018e, 0x0191, 1),
    (0x0193, 0x0194, 1), (0x0196, 0x0198, 1), (0x019c, 0x019d, 1), (0x019f, 0x01a0, 1),
    (0x01a2, 0x01a6, 2), (0x01a7, 0x01a9, 2), (0x01ac, 0x01ac, 1), (0x01ae, 0x01af, 1),
    (0x01b1, 0x01b3, 1), (0x01b5, 0x01b5, 1), (0x01b7, 0x01b8, 1), (0x01bc, 0x01bc, 1),
    (0x01c4, 0x01c4, 1), (0x01c7, 0x01c7, 1), (0x01ca, 0x01ca, 1), (0x01cd, 0x01db, 2),
    (0x01de, 0x01ee, 2), (0x01f1, 0x01f1, 1), (0x01f4, 0x01f4, 1), (0x01f6, 0x01f8, 1),
    (0x01fa, 0x0232, 2), (0x023a, 0x023b, 1), (0x023d, 0x023e, 1), (0x0241, 0x0241, 1),
    (0x0243, 0x0246, 1), (0x0248, 0x024e, 2), (0x0370, 0x0372, 2), (0x0376, 0x0376, 1),
    (0x037f, 0x037f, 1), (0x0386, 0x0386, 1), (0x0388, 0x038a, 1), (0x038c, 0x038c, 1),
    (0x038e, 0x038f, 1), (0x0391, 0x03a1, 1), (0x03a3, 0x03ab, 1), (0x03cf, 0x03cf, 1),
    (0x03d2, 0x03d4, 1), (0x03d8, 0x03ee, 2), (0x03f4, 0x03f4, 1), (0x03f7, 0x03f7, 1),
    (0x03f9, 0x03fa, 1), (0x03fd, 0x042f, 1), (0x0460, 0x0480, 2), (0x048a, 0x04c0, 2),
    (0x04c1, 0x04cd, 2), (0x04d0, 0x052e, 2), (0x0531, 0x0556, 1), (0x10a0, 0x10c5, 1),
    (0x10c7, 0x10c7, 1), (0x10cd, 0x10cd, 1), (0x13a0, 0x13f5, 1), (0x1c89, 0x1c89, 1),
    (0x1c90, 0x1cba, 1), (0x1cbd, 0x1cbf, 1), (0x1e00, 0x1e94, 2), (0x1e9e, 0x1efe, 2),
    (0x1f08, 0x1f0f, 1), (0x1f18, 0x1f1d, 1), (0x1f28, 0x1f2f, 1), (0x1f38, 0x1f3f, 1),
    (0x1f48, 0x1f4d, 1), (0x1f59, 0x1f5f, 2), (0x1f68, 0x1f6f, 1), (0x1fb8, 0x1fbb, 1),
    (0x1fc8, 0x1fcb, 1), (0x1fd8, 0x1fdb, 1), (0x1fe8, 0x1fec, 1), (0x1ff8, 0x1ffb, 1),
    (0x2102, 0x2102, 1), (0x2107, 0x2107, 1), (0x210b, 0x210d, 1), (0x2110, 0x2112, 1),
    (0x2115, 0x2115, 1), (0x2119, 0x211d, 1), (0x2124, 0x212a, 2), (0x212b, 0x212d, 1),
    (0x2130, 0x2133, 1), (0x213e, 0x213f, 1), (0x2145, 0x2145, 1), (0x2160, 0x216f, 1),
    (0x2183, 0x2183, 1), (0x24b6, 0x24cf, 1), (0x2c00, 0x2c2f, 1), (0x2c60, 0x2c60, 1),
    (0x2c62, 0x2c64, 1), (0x2c67, 0x2c6d, 2), (0x2c6e, 0x2c70, 1), (0x2c72, 0x2c72, 1),
    (0x2c75, 0x2c75, 1), (0x2c7e, 0x2c80, 1), (0x2c82, 0x2ce2, 2), (0x2ceb, 0x2ced, 2),
    (0x2cf2, 0x2cf2, 1), (0xa640, 0xa66c, 2), (0xa680, 0xa69a, 2), (0xa722, 0xa72e, 2),
    (0xa732, 0xa76e, 2), (0xa779, 0xa77d, 2), (0xa77e, 0xa786, 2), (0xa78b, 0xa78d, 2),
    (0xa790, 0xa792, 2), (0xa796, 0xa7aa, 2), (0xa7ab, 0xa7ae, 1), (0xa7b0, 0xa7b4, 1),
    (0xa7b6, 0xa7c4, 2), (0xa7c5, 0xa7c7, 1), (0xa7c9, 0xa7c9, 1), (0xa7cb, 0xa7cc, 1),
    (0xa7ce, 0xa7dc, 2), (0xa7f5, 0xa7f5, 1), (0xff21, 0xff3a, 1), (0x10400, 0x10427, 1),
    (0x104b0, 0x104d3, 1), (0x10570, 0x1057a, 1), (0x1057c, 0x1058a, 1), (0x1058c, 0x10592, 1),
    (0x10594, 0x10595, 1), (0x10c80, 0x10cb2, 1), (0x10d50, 0x10d65, 1), (0x118a0, 0x118bf, 1),
    (0x16e40, 0x16e5f, 1), (0x16ea0, 0x16eb8, 1), (0x1d400, 0x1d419, 1), (0x1d434, 0x1d44d, 1),
    (0x1d468, 0x1d481, 1), (0x1d49c, 0x1d49c, 1), (0x1d49e, 0x1d49f, 1), (0x1d4a2, 0x1d4a2, 1),
    (0x1d4a5, 0x1d4a6, 1), (0x1d4a9, 0x1d4ac, 1), (0x1d4ae, 0x1d4b5, 1), (0x1d4d0, 0x1d4e9, 1),
    (0x1d504, 0x1d505, 1), (0x1d507, 0x1d50a, 1), (0x1d50d, 0x1d514, 1), (0x1d516, 0x1d51c, 1),
    (0x1d538, 0x1d539, 1), (0x1d53b, 0x1d53e, 1), (0x1d540, 0x1d544, 1), (0x1d546, 0x1d546, 1),
    (0x1d54a, 0x1d550, 1), (0x1d56c, 0x1d585, 1), (0x1d5a0, 0x1d5b9, 1), (0x1d5d4, 0x1d5ed, 1),
    (0x1d608, 0x1d621, 1), (0x1d63c, 0x1d655, 1), (0x1d670, 0x1d689, 1), (0x1d6a8, 0x1d6c0, 1),
    (0x1d6e2, 0x1d6fa, 1), (0x1d71c, 0x1d734, 1), (0x1d756, 0x1d76e, 1), (0x1d790, 0x1d7a8, 1),
    (0x1d7ca, 0x1d7ca, 1), (0x1e900, 0x1e921, 1), (0x1f130, 0x1f149, 1), (0x1f150, 0x1f169, 1),
    (0x1f170, 0x1f189, 1)
  ]

/-- The Unicode property Uppercase. -/
def isUppercase (c : Char) : Bool :=
  uppercaseRuns.any fun (first, last, step) =>
    first ≤ c.toNat && c.toNat ≤ last && (c.toNat - first) % step == 0

/-- Core's upper case letters are the first run of the table. -/
theorem isUppercase_of_isUpper {c : Char} (upper : c.isUpper = true) :
    isUppercase c = true := by
  refine List.any_eq_true.2 ⟨(0x0041, 0x005a, 1), List.mem_cons_self, ?_⟩
  have bounds : 65 ≤ c.val ∧ c.val ≤ 90 := of_decide_eq_true upper
  simpa [Nat.mod_one, UInt32.le_iff_toNat_le] using bounds

end DocComment
