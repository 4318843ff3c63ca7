namespace Screenwright.Casing

/-- Code points that differ from their upper-case mapping, as runs `(first, last, step)`. -/
def raisable : List (Nat × Nat × Nat) :=
  [(0x61, 0x7a, 1), (0xb5, 0xb5, 1), (0xdf, 0xf6, 1), (0xf8, 0xff, 1), (0x101, 0x137, 2),
  (0x13a, 0x148, 2), (0x149, 0x177, 2), (0x17a, 0x17e, 2), (0x17f, 0x180, 1),
  (0x183, 0x185, 2), (0x188, 0x188, 1), (0x18c, 0x18c, 1), (0x192, 0x192, 1),
  (0x195, 0x195, 1), (0x199, 0x19b, 1), (0x19e, 0x19e, 1), (0x1a1, 0x1a5, 2),
  (0x1a8, 0x1a8, 1), (0x1ad, 0x1ad, 1), (0x1b0, 0x1b0, 1), (0x1b4, 0x1b6, 2),
  (0x1b9, 0x1b9, 1), (0x1bd, 0x1bf, 2), (0x1c5, 0x1c6, 1), (0x1c8, 0x1c9, 1),
  (0x1cb, 0x1cc, 1), (0x1ce, 0x1dc, 2), (0x1dd, 0x1ef, 2), (0x1f0, 0x1f2, 2),
  (0x1f3, 0x1f5, 2), (0x1f9, 0x21f, 2), (0x223, 0x233, 2), (0x23c, 0x23c, 1),
  (0x23f, 0x240, 1), (0x242, 0x242, 1), (0x247, 0x24f, 2), (0x250, 0x254, 1),
  (0x256, 0x257, 1), (0x259, 0x25b, 2), (0x25c, 0x25c, 1), (0x260, 0x261, 1),
  (0x263, 0x266, 1), (0x268, 0x26c, 1), (0x26f, 0x271, 2), (0x272, 0x272, 1),
  (0x275, 0x275, 1), (0x27d, 0x27d, 1), (0x280, 0x282, 2), (0x283, 0x283, 1),
  (0x287, 0x28c, 1), (0x292, 0x292, 1), (0x29d, 0x29e, 1), (0x345, 0x345, 1),
  (0x371, 0x373, 2), (0x377, 0x377, 1), (0x37b, 0x37d, 1), (0x390, 0x390, 1),
  (0x3ac, 0x3ce, 1), (0x3d0, 0x3d1, 1), (0x3d5, 0x3d7, 1), (0x3d9, 0x3ef, 2),
  (0x3f0, 0x3f3, 1), (0x3f5, 0x3f5, 1), (0x3f8, 0x3f8, 1), (0x3fb, 0x3fb, 1),
  (0x430, 0x45f, 1), (0x461, 0x481, 2), (0x48b, 0x4bf, 2), (0x4c2, 0x4ce, 2),
  (0x4cf, 0x52f, 2), (0x561, 0x587, 1), (0x10d0, 0x10fa, 1), (0x10fd, 0x10ff, 1),
  (0x13f8, 0x13fd, 1), (0x1c80, 0x1c88, 1), (0x1c8a, 0x1c8a, 1), (0x1d79, 0x1d79, 1),
  (0x1d7d, 0x1d7d, 1), (0x1d8e, 0x1d8e, 1), (0x1e01, 0x1e95, 2), (0x1e96, 0x1e9b, 1),
  (0x1ea1, 0x1eff, 2), (0x1f00, 0x1f07, 1), (0x1f10, 0x1f15, 1), (0x1f20, 0x1f27, 1),
  (0x1f30, 0x1f37, 1), (0x1f40, 0x1f45, 1), (0x1f50, 0x1f57, 1), (0x1f60, 0x1f67, 1),
  (0x1f70, 0x1f7d, 1), (0x1f80, 0x1fb4, 1), (0x1fb6, 0x1fb7, 1), (0x1fbc, 0x1fbe, 2),
  (0x1fc2, 0x1fc4, 1), (0x1fc6, 0x1fc7, 1), (0x1fcc, 0x1fcc, 1), (0x1fd0, 0x1fd3, 1),
  (0x1fd6, 0x1fd7, 1), (0x1fe0, 0x1fe7, 1), (0x1ff2, 0x1ff4, 1), (0x1ff6, 0x1ff7, 1),
  (0x1ffc, 0x1ffc, 1), (0x214e, 0x214e, 1), (0x2170, 0x217f, 1), (0x2184, 0x2184, 1),
  (0x24d0, 0x24e9, 1), (0x2c30, 0x2c5f, 1), (0x2c61, 0x2c61, 1), (0x2c65, 0x2c66, 1),
  (0x2c68, 0x2c6c, 2), (0x2c73, 0x2c73, 1), (0x2c76, 0x2c76, 1), (0x2c81, 0x2ce3, 2),
  (0x2cec, 0x2cee, 2), (0x2cf3, 0x2cf3, 1), (0x2d00, 0x2d25, 1), (0x2d27, 0x2d27, 1),
  (0x2d2d, 0x2d2d, 1), (0xa641, 0xa66d, 2), (0xa681, 0xa69b, 2), (0xa723, 0xa72f, 2),
  (0xa733, 0xa76f, 2), (0xa77a, 0xa77c, 2), (0xa77f, 0xa787, 2), (0xa78c, 0xa78c, 1),
  (0xa791, 0xa793, 2), (0xa794, 0xa794, 1), (0xa797, 0xa7a9, 2), (0xa7b5, 0xa7c3, 2),
  (0xa7c8, 0xa7ca, 2), (0xa7cd, 0xa7db, 2), (0xa7f6, 0xa7f6, 1), (0xab53, 0xab53, 1),
  (0xab70, 0xabbf, 1), (0xfb00, 0xfb06, 1), (0xfb13, 0xfb17, 1), (0xff41, 0xff5a, 1),
  (0x10428, 0x1044f, 1), (0x104d8, 0x104fb, 1), (0x10597, 0x105a1, 1), (0x105a3, 0x105b1, 1),
  (0x105b3, 0x105b9, 1), (0x105bb, 0x105bc, 1), (0x10cc0, 0x10cf2, 1), (0x10d70, 0x10d85, 1),
  (0x118c0, 0x118df, 1), (0x16e60, 0x16e7f, 1), (0x16ebb, 0x16ed3, 1), (0x1e922, 0x1e943, 1)]

/-- Code points that differ from their lower-case mapping. -/
def lowerable : List (Nat × Nat × Nat) :=
  [(0x41, 0x5a, 1), (0xc0, 0xd6, 1), (0xd8, 0xde, 1), (0x100, 0x136, 2), (0x139, 0x147, 2),
  (0x14a, 0x178, 2), (0x179, 0x17d, 2), (0x181, 0x182, 1), (0x184, 0x186, 2),
  (0x187, 0x189, 2), (0x18a, 0x18b, 1), (0x18e, 0x191, 1), (0x193, 0x194, 1),
  (0x196, 0x198, 1), (0x19c, 0x19d, 1), (0x19f, 0x1a0, 1), (0x1a2, 0x1a6, 2),
  (0x1a7, 0x1a9, 2), (0x1ac, 0x1ae, 2), (0x1af, 0x1b1, 2), (0x1b2, 0x1b3, 1),
  (0x1b5, 0x1b7, 2), (0x1b8, 0x1b8, 1), (0x1bc, 0x1bc, 1), (0x1c4, 0x1c5, 1),
  (0x1c7, 0x1c8, 1), (0x1ca, 0x1cb, 1), (0x1cd, 0x1db, 2), (0x1de, 0x1ee, 2),
  (0x1f1, 0x1f2, 1), (0x1f4, 0x1f6, 2), (0x1f7, 0x1f8, 1), (0x1fa, 0x232, 2),
  (0x23a, 0x23b, 1), (0x23d, 0x23e, 1), (0x241, 0x243, 2), (0x244, 0x246, 1),
  (0x248, 0x24e, 2), (0x370, 0x372, 2), (0x376, 0x376, 1), (0x37f, 0x37f, 1),
  (0x386, 0x388, 2), (0x389, 0x38a, 1), (0x38c, 0x38e, 2), (0x38f, 0x391, 2),
  (0x392, 0x3a1, 1), (0x3a3, 0x3ab, 1), (0x3cf, 0x3cf, 1), (0x3d8, 0x3ee, 2),
  (0x3f4, 0x3f4, 1), (0x3f7, 0x3f9, 2), (0x3fa, 0x3fa, 1), (0x3fd, 0x42f, 1),
  (0x460, 0x480, 2), (0x48a, 0x4c0, 2), (0x4c1, 0x4cd, 2), (0x4d0, 0x52e, 2),
  (0x531, 0x556, 1), (0x10a0, 0x10c5, 1), (0x10c7, 0x10c7, 1), (0x10cd, 0x10cd, 1),
  (0x13a0, 0x13f5, 1), (0x1c89, 0x1c89, 1), (0x1c90, 0x1cba, 1), (0x1cbd, 0x1cbf, 1),
  (0x1e00, 0x1e94, 2), (0x1e9e, 0x1efe, 2), (0x1f08, 0x1f0f, 1), (0x1f18, 0x1f1d, 1),
  (0x1f28, 0x1f2f, 1), (0x1f38, 0x1f3f, 1), (0x1f48, 0x1f4d, 1), (0x1f59, 0x1f5f, 2),
  (0x1f68, 0x1f6f, 1), (0x1f88, 0x1f8f, 1), (0x1f98, 0x1f9f, 1), (0x1fa8, 0x1faf, 1),
  (0x1fb8, 0x1fbc, 1), (0x1fc8, 0x1fcc, 1), (0x1fd8, 0x1fdb, 1), (0x1fe8, 0x1fec, 1),
  (0x1ff8, 0x1ffc, 1), (0x2126, 0x2126, 1), (0x212a, 0x212b, 1), (0x2132, 0x2132, 1),
  (0x2160, 0x216f, 1), (0x2183, 0x2183, 1), (0x24b6, 0x24cf, 1), (0x2c00, 0x2c2f, 1),
  (0x2c60, 0x2c62, 2), (0x2c63, 0x2c64, 1), (0x2c67, 0x2c6d, 2), (0x2c6e, 0x2c70, 1),
  (0x2c72, 0x2c72, 1), (0x2c75, 0x2c75, 1), (0x2c7e, 0x2c80, 1), (0x2c82, 0x2ce2, 2),
  (0x2ceb, 0x2ced, 2), (0x2cf2, 0x2cf2, 1), (0xa640, 0xa66c, 2), (0xa680, 0xa69a, 2),
  (0xa722, 0xa72e, 2), (0xa732, 0xa76e, 2), (0xa779, 0xa77d, 2), (0xa77e, 0xa786, 2),
  (0xa78b, 0xa78d, 2), (0xa790, 0xa792, 2), (0xa796, 0xa7aa, 2), (0xa7ab, 0xa7ae, 1),
  (0xa7b0, 0xa7b4, 1), (0xa7b6, 0xa7c4, 2), (0xa7c5, 0xa7c7, 1), (0xa7c9, 0xa7cb, 2),
  (0xa7cc, 0xa7dc, 2), (0xa7f5, 0xa7f5, 1), (0xff21, 0xff3a, 1), (0x10400, 0x10427, 1),
  (0x104b0, 0x104d3, 1), (0x10570, 0x1057a, 1), (0x1057c, 0x1058a, 1), (0x1058c, 0x10592, 1),
  (0x10594, 0x10595, 1), (0x10c80, 0x10cb2, 1), (0x10d50, 0x10d65, 1), (0x118a0, 0x118bf, 1),
  (0x16e40, 0x16e5f, 1), (0x16ea0, 0x16eb8, 1), (0x1e900, 0x1e921, 1)]

end Screenwright.Casing
