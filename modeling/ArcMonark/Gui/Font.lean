/-! The console font (`font8x16.h`).

A glyph is sixteen rows of eight points. It stands here as one number, the top row
first, two digits a row. The table of the source has 256 glyphs; `gfx_char` reads the
first 128. -/
namespace ArcMonark.Gui

def font8x16 : List Nat := [
  0x00000000000000000000000000000000,
  0x00007e81a58181bd9981817e00000000,
  0x00007effdbffffc3e7ffff7e00000000,
  0x000000006cfefefefe7c381000000000,
  0x0000000010387cfe7c38100000000000,
  0x000000183c3ce7e7e718183c00000000,
  0x000000183c7effff7e18183c00000000,
  0x000000000000183c3c18000000000000,
  0xffffffffffffe7c3c3e7ffffffffffff,
  0x00000000003c664242663c0000000000,
  0xffffffffffc399bdbd99c3ffffffffff,
  0x00001e0e1a3278cccccccc7800000000,
  0x00003c666666663c187e181800000000,
  0x00003f333f3030303070f0e000000000,
  0x00007f637f6363636367e7e6c0000000,
  0x0000001818db3ce73cdb181800000000,
  0x0080c0e0f0f8fef8f0e0c08000000000,
  0x0002060e1e3efe3e1e0e060200000000,
  0x0000183c7e1818187e3c180000000000,
  0x00006666666666666600666600000000,
  0x00007fdbdbdb7b1b1b1b1b1b00000000,
  0x007cc660386cc6c66c380cc67c000000,
  0x0000000000000000fefefefe00000000,
  0x0000183c7e1818187e3c187e00000000,
  0x0000183c7e1818181818181800000000,
  0x0000181818181818187e3c1800000000,
  0x0000000000180cfe0c18000000000000,
  0x00000000003060fe6030000000000000,
  0x000000000000c0c0c0fe000000000000,
  0x0000000000286cfe6c28000000000000,
  0x000000001038387c7cfefe0000000000,
  0x00000000fefe7c7c3838100000000000,
  0x00000000000000000000000000000000,
  0x0000183c3c3c18181800181800000000,
  0x00666666240000000000000000000000,
  0x0000006c6cfe6c6c6cfe6c6c00000000,
  0x18187cc6c2c07c060686c67c18180000,
  0x00000000c2c60c183060c68600000000,
  0x0000386c6c3876dccccccc7600000000,
  0x00303030600000000000000000000000,
  0x00000c18303030303030180c00000000,
  0x000030180c0c0c0c0c0c183000000000,
  0x0000000000663cff3c66000000000000,
  0x000000000018187e1818000000000000,
  0x00000000000000000018181830000000,
  0x00000000000000fe0000000000000000,
  0x00000000000000000000181800000000,
  0x0000000002060c183060c08000000000,
  0x0000386cc6c6d6d6c6c66c3800000000,
  0x00001838781818181818187e00000000,
  0x00007cc6060c183060c0c6fe00000000,
  0x00007cc606063c060606c67c00000000,
  0x00000c1c3c6cccfe0c0c0c1e00000000,
  0x0000fec0c0c0fc060606c67c00000000,
  0x00003860c0c0fcc6c6c6c67c00000000,
  0x0000fec606060c183030303000000000,
  0x00007cc6c6c67cc6c6c6c67c00000000,
  0x00007cc6c6c67e0606060c7800000000,
  0x00000000181800000018180000000000,
  0x00000000181800000018183000000000,
  0x000000060c18306030180c0600000000,
  0x00000000007e00007e00000000000000,
  0x0000006030180c060c18306000000000,
  0x00007cc6c60c18181800181800000000,
  0x0000007cc6c6dedededcc07c00000000,
  0x000010386cc6c6fec6c6c6c600000000,
  0x0000fc6666667c66666666fc00000000,
  0x00003c66c2c0c0c0c0c2663c00000000,
  0x0000f86c6666666666666cf800000000,
  0x0000fe6662687868606266fe00000000,
  0x0000fe6662687868606060f000000000,
  0x00003c66c2c0c0dec6c6663a00000000,
  0x0000c6c6c6c6fec6c6c6c6c600000000,
  0x00003c18181818181818183c00000000,
  0x00001e0c0c0c0c0ccccccc7800000000,
  0x0000e666666c78786c6666e600000000,
  0x0000f06060606060606266fe00000000,
  0x0000c6eefefed6c6c6c6c6c600000000,
  0x0000c6e6f6fedecec6c6c6c600000000,
  0x00007cc6c6c6c6c6c6c6c67c00000000,
  0x0000fc6666667c60606060f000000000,
  0x00007cc6c6c6c6c6c6d6de7c0c0e0000,
  0x0000fc6666667c6c666666e600000000,
  0x00007cc6c660380c06c6c67c00000000,
  0x00007e7e5a1818181818183c00000000,
  0x0000c6c6c6c6c6c6c6c6c67c00000000,
  0x0000c6c6c6c6c6c6c66c381000000000,
  0x0000c6c6c6c6d6d6d6feee6c00000000,
  0x0000c6c66c7c38387c6cc6c600000000,
  0x0000666666663c181818183c00000000,
  0x0000fec6860c183060c2c6fe00000000,
  0x00003c30303030303030303c00000000,
  0x00000080c0e070381c0e060200000000,
  0x00003c0c0c0c0c0c0c0c0c3c00000000,
  0x10386cc6000000000000000000000000,
  0x00000000000000000000000000ff0000,
  0x30301800000000000000000000000000,
  0x0000000000780c7ccccccc7600000000,
  0x0000e06060786c666666667c00000000,
  0x00000000007cc6c0c0c0c67c00000000,
  0x00001c0c0c3c6ccccccccc7600000000,
  0x00000000007cc6fec0c0c67c00000000,
  0x0000386c6460f060606060f000000000,
  0x000000000076cccccccccc7c0ccc7800,
  0x0000e060606c7666666666e600000000,
  0x00001818003818181818183c00000000,
  0x00000606000e06060606060666663c00,
  0x0000e06060666c78786c66e600000000,
  0x00003818181818181818183c00000000,
  0x0000000000ecfed6d6d6d6c600000000,
  0x0000000000dc66666666666600000000,
  0x00000000007cc6c6c6c6c67c00000000,
  0x0000000000dc66666666667c6060f000,
  0x000000000076cccccccccc7c0c0c1e00,
  0x0000000000dc7666606060f000000000,
  0x00000000007cc660380cc67c00000000,
  0x0000103030fc30303030361c00000000,
  0x0000000000cccccccccccc7600000000,
  0x000000000066666666663c1800000000,
  0x0000000000c6c6d6d6d6fe6c00000000,
  0x0000000000c66c3838386cc600000000,
  0x0000000000c6c6c6c6c6c67e060cf800,
  0x0000000000fecc183060c6fe00000000,
  0x00000e18181870181818180e00000000,
  0x00001818181800181818181800000000,
  0x0000701818180e181818187000000000,
  0x000076dc000000000000000000000000,
  0x0000000010386cc6c6c6fe0000000000
]

/-- `font8x16[uc][row]` -/
def glyphRow (uc : UInt8) (row : Nat) : UInt8 := .ofNat (font8x16.getD uc.toNat 0 >>> (8 * (15 - row)))

example : glyphRow 0x41 2 = 0x10 := by decide +kernel

end ArcMonark.Gui
